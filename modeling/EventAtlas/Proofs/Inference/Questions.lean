import EventAtlas.Proofs.Inference.Course

/-!
# What strategies ask

A strategy asks for the types of two sorts of nodes. The operands of its node, which are children of it, it asks for
at once. Other nodes are guarded: values that are assigned, returned or written to properties, elements of arrays,
declarations. A guarded node is asked for only after a look at the stack, and not if it is there.

`Strategy.Asks` states this for a dialogue, whatever answers it gets, and `dispatch_asks` proves it for the strategy of
every node. It also says where variables are read, and that the writes to properties have been collected when a strategy
asks for them.
-/

namespace EventAtlas

open List Forest

namespace Forest

/-- The names of the classes that a clause catches. -/
def caughtNames (f : Forest) (clause : NodeId) : List NodeId :=
  match f.kind clause with
  | .catchClause => f.childrenWhere clause NodeKind.isName
  | _ => []

/-- The nodes for whose types the strategy of a node asks without a look at the stack. -/
def operands (f : Forest) (node : NodeId) : List NodeId :=
  let children := f.children node
  match f.kind node with
  | .method .. | .function _ => (f.typeHint? node).toList
  | .property .. | .parameter .. => (f.typeHint? node).toList ++ (f.defaultValue? node).toList
  | .classConstant _ => ((f.defaultValue? node).or (f.typeHint? node)).toList
  | .nullableType | .unionType | .intersectionType => children
  | .var _ => (f.parent node).toList.flatMap f.caughtNames
  | .assign _ => (children.drop 1).head?.toList
  | .compoundAssign op =>
    match op == "??=", Operation.compound op with
    | false, .fixed _ => []
    | _, _ => (children.drop 1).head?.toList
  | .new => children.head?.toList
  | .propertyFetch .. | .staticPropertyFetch _ =>
    if (Strategy.assignedTo? f node).isSome then [] else children.head?.toList
  | .classConstantFetch name => children.head?.toList ++ f.ids.filter fun n => f.kind n == .classConstant name
  | .staticVariable _ | .methodCall .. | .staticCall _ | .argument .. | .clone | .arrayAccess => children.head?.toList
  | .ternary short => if short then children else children.drop 1
  | .coalesce => children.take 2
  | .binary op =>
    match Operation.binary (Text.lower op) with
    | .arithmetic => children.take 2
    | _ => []
  | .unary op => if op == "!" || op == "~" then [] else children.head?.toList
  | .matchExpr => f.childrenWhere node NodeKind.isMatchArm
  | .matchArm _ => children.getLast?.toList
  | _ => []

/-- The children of a node that are guarded because of their place. -/
def guardedChildren (f : Forest) (node : NodeId) : List NodeId :=
  match f.kind node with
  | .assign _ => ((f.children node).drop 1).head?.toList
  | .compoundAssign _ | .returnStmt => (f.children node).head?.toList
  | .arrayLiteral | .foreach _ => f.children node
  | .catchClause | .closure _ => f.childrenWhere node Sweeping.isVariable
  | _ => []

/-- A kind of node that is guarded wherever it stands. -/
def isGuardedKind : NodeKind → Bool
  | .method .. | .property .. | .parameter .. | .compoundAssign _ | .staticVariable _ => true
  | _ => false

/-- A node that is asked for only after a look at the stack, its parent apart. -/
def Guarded (f : Forest) (node : NodeId) : Prop :=
  isGuardedKind (f.kind node) = true ∨ ∃ p, node ∈ f.guardedChildren p

/-- The class-like whose writes are collected before those to a declaration are asked for. -/
def collector? (f : Forest) (decl : NodeId) : Option NodeId :=
  match f.kind decl with
  | .property .. => f.parent decl
  | _ => f.enclosingClass? decl

end Forest

namespace Strategy

variable {α β : Type}

/-- The dialogue of a strategy for a node asks for its operands, for guarded nodes that are `absent` from the stack, for
what the node itself reads, and for writes of class-likes that are `collected`. -/
def Asks (f : Forest) (node : NodeId) : (absent collected : List NodeId) → Strategy α → Prop
  | _, _, .done _ => True
  | absent, collected, .ask (.types n) next =>
    (n ∈ f.operands node ∨ (f.Guarded n ∧ n ∈ absent)) ∧ ∀ types, Asks f node absent collected (next types)
  | absent, collected, .ask (.isResolving n) next =>
    Asks f node absent collected (next true) ∧ Asks f node (n :: absent) collected (next false)
  | absent, collected, .ask (.read n scope _) next =>
    (n = node ∧ readingScope? f node = some scope) ∧ ∀ types, Asks f node absent collected (next types)
  | absent, collected, .ask (.collect c) next => Asks f node absent (c :: collected) (next ())
  | absent, collected, .ask (.writesTo decl) next =>
    (decl = node ∧ ∀ c, f.collector? node = some c → c ∈ collected) ∧
      ∀ writes : List PropertyWrite, (∀ w ∈ writes, f.Guarded w.node) → Asks f node absent collected (next writes)
  | absent, collected, .ask (.looseWrites owner _) next =>
    owner ∈ collected ∧
      ∀ writes : List PropertyWrite, (∀ w ∈ writes, f.Guarded w.node) → Asks f node absent collected (next writes)

variable {f : Forest} {node : NodeId} {absent absent' collected collected' : List NodeId} {name op : String} {x : Index}
  {known : TypeSet} {n : NodeId} {nodes : List NodeId}

theorem Asks.mono {d : Strategy α} (h : d.Asks f node absent collected) (habsent : absent ⊆ absent')
    (hcollected : collected ⊆ collected') : d.Asks f node absent' collected' := by
  induction d generalizing absent absent' collected collected' with
  | done a => trivial
  | ask q next ih =>
    cases q with
    | types n =>
      exact ⟨h.1.imp_right fun g => ⟨g.1, habsent g.2⟩, fun types => ih types (h.2 types) habsent hcollected⟩
    | isResolving n =>
      exact ⟨ih true h.1 habsent hcollected, ih false h.2 (cons_subset_cons n habsent) hcollected⟩
    | read n scope name => exact ⟨h.1, fun types => ih types (h.2 types) habsent hcollected⟩
    | collect c => exact ih () h habsent (cons_subset_cons c hcollected)
    | writesTo decl =>
      exact ⟨⟨h.1.1, fun c hc => hcollected (h.1.2 c hc)⟩,
        fun writes hw => ih writes (h.2 writes hw) habsent hcollected⟩
    | looseWrites owner name =>
      exact ⟨hcollected h.1, fun writes hw => ih writes (h.2 writes hw) habsent hcollected⟩

theorem Asks.bind {d : Strategy α} {g : α → Strategy β} (hd : d.Asks f node absent collected)
    (hg : ∀ a, (g a).Asks f node absent collected) : (d >>= g).Asks f node absent collected := by
  induction d generalizing absent collected with
  | done a => exact hg a
  | ask q next ih =>
    cases q with
    | types n => exact ⟨hd.1, fun types => ih types (hd.2 types) hg⟩
    | isResolving n =>
      exact ⟨ih true hd.1 hg, ih false hd.2 fun a => (hg a).mono (subset_cons_self n absent) fun _ h => h⟩
    | read n scope name => exact ⟨hd.1, fun types => ih types (hd.2 types) hg⟩
    | collect c =>
      exact ih () hd fun a => (hg a).mono (fun _ h => h) (subset_cons_self c collected)
    | writesTo decl => exact ⟨hd.1, fun writes hw => ih writes (hd.2 writes hw) hg⟩
    | looseWrites owner name => exact ⟨hd.1, fun writes hw => ih writes (hd.2 writes hw) hg⟩

/-! ## Parts of strategies -/

theorem asks_types (h : n ∈ f.operands node) : (types n).Asks f node absent collected :=
  ⟨.inl h, fun _ => trivial⟩

theorem asks_maybe {n : Option NodeId} (h : ∀ m, n = some m → m ∈ f.operands node) :
    (maybe n).Asks f node absent collected := by
  cases n with
  | none => trivial
  | some m => exact asks_types (h m rfl)

theorem asks_gather {find : NodeId → Strategy TypeSet}
    (h : ∀ n ∈ nodes, (find n).Asks f node absent collected) : (gather find known nodes).Asks f node absent collected := by
  induction nodes generalizing known with
  | nil => trivial
  | cons n rest ih =>
    exact (h n mem_cons_self).bind fun found => ih fun m hm => h m (mem_cons_of_mem n hm)

theorem asks_all (h : ∀ n ∈ nodes, n ∈ f.operands node) : (all nodes).Asks f node absent collected :=
  asks_gather fun n hn => asks_types (h n hn)

theorem asks_unlessResolving (h : f.Guarded n) : (unlessResolving n : Strategy TypeSet).Asks f node absent collected :=
  ⟨trivial, .inr ⟨h, mem_cons_self⟩, fun _ => trivial⟩

theorem asks_maybeUnlessResolving {n : Option NodeId} (h : ∀ m, n = some m → f.Guarded m) :
    (maybeUnlessResolving n).Asks f node absent collected := by
  cases n with
  | none => trivial
  | some m => exact asks_unlessResolving (h m rfl)

theorem asks_collectMaybe_bind {c : Option NodeId} {g : PUnit → Strategy α}
    (h : ∀ collected, (∀ d, c = some d → d ∈ collected) → (g ()).Asks f node absent collected) :
    (collectMaybe c >>= g).Asks f node absent collected := by
  cases c with
  | none => exact h collected nofun
  | some d =>
    refine h (d :: collected) ?_
    rintro _ ⟨⟩
    exact mem_cons_self

/-! ## Guarded nodes -/

/-- The value of an assignment is guarded. -/
theorem guarded_assigned {p : NodeId} {byRef : Bool} (hp : f.kind p = .assign byRef)
    (h : ((f.children p).drop 1).head? = some n) : f.Guarded n :=
  .inr ⟨p, by simpa [guardedChildren, hp] using h⟩

theorem guarded_looped {p : NodeId} {hasKey : Bool} (hp : f.kind p = .foreach hasKey) (h : n ∈ f.children p) :
    f.Guarded n :=
  .inr ⟨p, by simpa [guardedChildren, hp] using h⟩

theorem guarded_ownProperty {c decl : NodeId} (h : decl ∈ f.ownProperties c) : f.Guarded decl := by
  left
  rw [ownProperties, mem_append] at h
  obtain h | h := h
  · have hkind := (mem_filter.mp h).2
    unfold isProperty at hkind
    split at hkind
    · next hk => rw [hk]; rfl
    · cases hkind
  · split at h
    · have hkind := (mem_filter.mp h).2
      unfold isPromoted at hkind
      split at hkind
      · next hk => rw [hk]; rfl
      · cases hkind
    · cases h

theorem guarded_method {c method : NodeId} (h : f.findMethod? c name = some method) : f.Guarded method := by
  left
  obtain ⟨owner, -, howner⟩ := exists_of_findSome?_eq_some h
  have hkind := find?_some howner
  unfold isMethodNamed at hkind
  split at hkind
  · next hk => rw [hk]; rfl
  · cases hkind

theorem kind_returnsBelow {n : Nat} {body ret : NodeId} (h : ret ∈ Index.returnsBelow f n body) :
    f.kind ret = .returnStmt := by
  induction n generalizing body ret with
  | zero => cases h
  | succ n ih =>
    have hbelow : ∀ r, r ∈ ((f.children body).flatMap fun c =>
        if (f.kind c).isClassLike || (f.kind c).isFunctionLike then [] else Index.returnsBelow f n c) →
        f.kind r = .returnStmt := by
      intro r hr
      obtain ⟨c, -, hc⟩ := mem_flatMap.mp hr
      split at hc
      · cases hc
      · exact ih hc
    unfold Index.returnsBelow at h
    dsimp only at h
    split at h
    · next hk =>
      obtain rfl | h := mem_cons.mp h
      · exact hk
      · exact hbelow ret h
    · exact hbelow ret h

/-! ## Properties -/

theorem asks_writesTypes {writes : List PropertyWrite} (h : ∀ w ∈ writes, f.Guarded w.node) :
    (writesTypes known writes).Asks f node absent collected := by
  induction writes generalizing known with
  | nil => trivial
  | cons w rest ih =>
    have hwrite : (writeTypes w).Asks f node absent collected := by
      have hguarded := h w mem_cons_self
      cases w with
      | assigned value => exact asks_unlessResolving hguarded
      | compound value => exact asks_unlessResolving hguarded
      | appended value =>
        refine (asks_unlessResolving hguarded).bind fun types => ?_
        dsimp only
        split <;> trivial
    exact hwrite.bind fun found => ih fun v hv => h v (mem_cons_of_mem w hv)

theorem asks_injectedTypes (h : ∀ c, f.collector? node = some c → c ∈ collected) :
    (injectedTypes node).Asks f node absent collected :=
  ⟨⟨rfl, h⟩, fun _ hw => asks_writesTypes hw⟩

theorem asks_declarationsTypes {decls : List NodeId} (h : ∀ d ∈ decls, f.Guarded d) :
    (declarationsTypes known decls).Asks f node absent collected := by
  induction decls generalizing known absent with
  | nil => trivial
  | cons d rest ih =>
    have hrest : ∀ d ∈ rest, f.Guarded d := fun e he => h e (mem_cons_of_mem d he)
    exact ⟨ih hrest, .inr ⟨h d mem_cons_self, mem_cons_self⟩, fun types => ih hrest⟩

theorem asks_ownersTypes {owners : List NodeId} :
    (ownersTypes x name known owners).Asks x.forest node absent collected := by
  induction owners generalizing known collected with
  | nil => trivial
  | cons owner rest ih =>
    have hdecls : ∀ d ∈ x.forest.ownPropertiesNamed owner name, x.forest.Guarded d :=
      fun d hd => guarded_ownProperty (mem_filter.mp hd).1
    refine (asks_declarationsTypes hdecls).bind fun types => ⟨mem_cons_self, fun writes hw => ?_⟩
    exact (asks_writesTypes hw).bind fun types => ih

/-- The type and the value of a declaration are its operands. -/
theorem mem_operands_of_declared (h : f.operands node = (f.typeHint? node).toList ++ (f.defaultValue? node).toList) :
    (∀ n, f.typeHint? node = some n → n ∈ f.operands node) ∧
      ∀ n, f.defaultValue? node = some n → n ∈ f.operands node := by
  rw [h]
  exact ⟨fun n hn => by simp [hn], fun n hn => by simp [hn]⟩

theorem asks_property {m : Modifiers} (hk : x.forest.kind node = .property name m) :
    (property x node name).Asks x.forest node absent collected := by
  obtain ⟨hhint, hdefault⟩ := mem_operands_of_declared (by rw [operands, hk])
  have hcollector : x.forest.collector? node = x.forest.parent node := by simp [collector?, hk]
  refine asks_collectMaybe_bind fun collected hc => ?_
  rw [← hcollector] at hc
  exact (asks_maybe hhint).bind fun _ => (asks_maybe hdefault).bind fun _ => (asks_injectedTypes hc).bind fun _ => trivial

/-- The value that is assigned to a target is guarded. -/
theorem guarded_assignedTo {target value : NodeId} (h : assignedTo? f target = some (some value)) : f.Guarded value := by
  unfold assignedTo? at h
  split at h
  · cases h
  · next p _ =>
    split at h
    · next hk =>
      split at h
      · exact guarded_assigned hk (Option.some.inj h)
      · cases h
    · cases h

theorem asks_propertyFetch
    (h : assignedTo? x.forest node = none → ∀ n, x.forest.firstChild? node = some n → n ∈ x.forest.operands node) :
    (propertyFetch x node name).Asks x.forest node absent collected := by
  unfold propertyFetch
  dsimp only
  split
  · next ha => exact asks_maybeUnlessResolving fun _ hn => guarded_assignedTo (hn ▸ ha)
  · next ha =>
    split
    · trivial
    · next receiver hc =>
      exact (asks_types (h ha receiver hc)).bind fun _ => asks_gather fun _ _ => asks_ownersTypes

/-! ## Variables -/

theorem asks_destructured? {n : Nat} {target : NodeId} : (destructured? f n target).Asks f node absent collected := by
  induction n generalizing target with
  | zero => trivial
  | succ n ih =>
    unfold destructured?
    cases f.parent target with
    | none => trivial
    | some p =>
      dsimp only
      split
      · next hk =>
        split
        · exact (asks_maybeUnlessResolving fun _ hn => guarded_assigned hk hn).bind fun _ => trivial
        · trivial
      · next hk =>
        split
        · next hsource =>
          exact (asks_unlessResolving (guarded_looped hk (mem_of_mem_head? hsource))).bind fun _ => trivial
        · trivial
      · exact ih.bind fun _ => trivial
      · exact ih.bind fun _ => trivial
      · trivial

theorem asks_readVariable : (readVariable f node name).Asks f node absent collected := by
  unfold readVariable
  split
  · trivial
  · next hscope => exact ⟨⟨rfl, hscope⟩, fun _ => trivial⟩

theorem asks_variableTypes {name' : String} (hk : x.forest.kind node = .var name') :
    (variableTypes x node name).Asks x.forest node absent collected := by
  unfold variableTypes
  dsimp only
  split
  · trivial
  · cases hp : x.forest.parent node with
    | none => trivial
    | some p =>
      dsimp only
      split
      · next hkp =>
        split
        · exact asks_maybeUnlessResolving fun _ hn => guarded_assigned hkp hn
        · exact asks_readVariable
      · next hkp =>
        split
        · next hc =>
          refine (asks_unlessResolving (guarded_looped hkp (by rw [hc]; exact mem_cons_self))).bind fun _ => ?_
          split <;> trivial
        · trivial
        · exact asks_readVariable
      · next hkp =>
        refine asks_all fun n hn => ?_
        simpa [operands, hk, hp, caughtNames, hkp] using hn
      · refine asks_destructured?.bind fun types => ?_
        split
        · trivial
        · exact asks_readVariable
      · refine asks_destructured?.bind fun types => ?_
        split
        · trivial
        · exact asks_readVariable
      · exact asks_readVariable

/-! ## Declarations and calls -/

theorem asks_returned {rets : List NodeId} (h : ∀ r ∈ rets, f.kind r = .returnStmt) :
    (returned f known rets).Asks f node absent collected := by
  induction rets generalizing known with
  | nil => trivial
  | cons ret rest ih =>
    have hrest : ∀ r ∈ rest, f.kind r = .returnStmt := fun r hr => h r (mem_cons_of_mem ret hr)
    unfold returned
    split
    · next value hvalue =>
      have hguarded : f.Guarded value := by
        refine .inr ⟨ret, ?_⟩
        rw [firstChild?] at hvalue
        simp [guardedChildren, h ret mem_cons_self, hvalue]
      exact (asks_unlessResolving hguarded).bind fun _ => ih hrest
    · exact ih hrest

theorem asks_functionResult (h : ∀ n, x.forest.typeHint? node = some n → n ∈ x.forest.operands node) :
    (functionResult x node).Asks x.forest node absent collected := by
  refine (asks_maybe h).bind fun hinted => ?_
  dsimp only
  split
  · trivial
  · split
    · trivial
    · split
      · trivial
      · exact (asks_returned fun r hr => kind_returnsBelow hr).bind fun _ => trivial

theorem asks_parameter {variadic promoted byRef : Bool} {m : Option Modifiers}
    (hk : x.forest.kind node = .parameter name variadic byRef m) :
    (parameter x node name variadic promoted).Asks x.forest node absent collected := by
  obtain ⟨hhint, hdefault⟩ := mem_operands_of_declared (by rw [operands, hk])
  have hcollector : x.forest.collector? node = x.forest.enclosingClass? node := by simp [collector?, hk]
  refine (asks_maybe hhint).bind fun _ => (asks_maybe hdefault).bind fun _ => ?_
  dsimp only
  split
  · refine asks_collectMaybe_bind fun collected hc => ?_
    rw [← hcollector] at hc
    exact (asks_injectedTypes hc).bind fun _ => trivial
  · trivial

theorem asks_callOn {receivers : List Ty} : (callOn x name known receivers).Asks x.forest node absent collected := by
  induction receivers generalizing known absent with
  | nil => trivial
  | cons receiver rest ih =>
    unfold callOn
    split
    · exact ih
    · next method hmethod =>
      obtain ⟨c, -, hc⟩ := Option.bind_eq_some_iff.mp hmethod
      exact ⟨ih, .inr ⟨guarded_method hc, mem_cons_self⟩, fun _ => ih⟩

theorem asks_call {receiver : Option NodeId} (h : ∀ n, receiver = some n → n ∈ x.forest.operands node) :
    (call x name receiver).Asks x.forest node absent collected := by
  cases receiver with
  | none => trivial
  | some n => exact (asks_types (h n rfl)).bind fun _ => asks_callOn

theorem lt_size_of_kind (h : f.kind n ≠ .other "") : n < f.size := by
  refine Nat.lt_of_not_le fun hle => h ?_
  have hnot : ¬ n < f.nodes.size := Nat.not_lt.mpr hle
  simp [kind, node, Array.getD, hnot]

theorem asks_constant (hk : x.forest.kind node = .classConstantFetch name) :
    (constant x name (x.forest.children node).head?).Asks x.forest node absent collected := by
  unfold constant
  split
  · trivial
  · split
    · trivial
    · next scope hscope =>
      refine (asks_types (by simp [operands, hk, hscope])).bind fun types => asks_all fun n hn => ?_
      obtain ⟨c, -, hc⟩ := mem_filterMap.mp hn
      obtain ⟨owner, -, howner⟩ := exists_of_findSome?_eq_some hc
      have hkind : x.forest.kind n = .classConstant name := by simpa using find?_some howner
      have hlt : n < x.forest.size := lt_size_of_kind (by rw [hkind]; nofun)
      simp [operands, hk, ids, hkind, hlt]

/-! ## Operations -/

theorem asks_compoundAssign (hk : f.kind node = .compoundAssign op) :
    (compoundAssign op (f.children node)).Asks f node absent collected := by
  unfold compoundAssign
  split
  · next target value _ hc =>
    have htarget : f.Guarded target := .inr ⟨node, by simp [guardedChildren, hk, hc]⟩
    split
    · next hop =>
      refine (asks_unlessResolving htarget).bind fun _ => (asks_types ?_).bind fun _ => trivial
      simp [operands, hk, hc, hop]
    · next hop =>
      split
      · trivial
      · next hr =>
        refine (asks_unlessResolving htarget).bind fun _ => (asks_types ?_).bind fun _ => trivial
        simp [operands, hk, hc, hop, hr]
      · next hr =>
        refine asks_types ?_
        simp [operands, hk, hc, hop, hr]
  · trivial

theorem asks_binary (hk : f.kind node = .binary op) :
    (binary (Text.lower op) (f.children node)).Asks f node absent collected := by
  unfold binary
  split
  · trivial
  · trivial
  · next hop =>
    split
    · next hc =>
      refine (asks_types ?_).bind fun _ => (asks_types ?_).bind fun _ => trivial
      · simp [operands, hk, hop, hc]
      · simp [operands, hk, hop, hc]
    · trivial

theorem asks_unary (hk : f.kind node = .unary op) :
    (unary op (f.children node).head?).Asks f node absent collected := by
  unfold unary
  split
  · trivial
  · next hnot =>
    split
    · trivial
    · next hinv =>
      split
      · trivial
      · next operand hc =>
        refine (asks_types ?_).bind fun types => ?_
        · simp [operands, hk, hnot, hinv, hc]
        · split <;> trivial

theorem asks_elements (h : ∀ n ∈ nodes, f.Guarded n) : (elements f known nodes).Asks f node absent collected := by
  induction nodes generalizing known with
  | nil => trivial
  | cons n rest ih =>
    have hrest : ∀ m ∈ rest, f.Guarded m := fun m hm => h m (mem_cons_of_mem n hm)
    unfold elements
    split
    · exact ih hrest
    · exact (asks_unlessResolving (h n mem_cons_self)).bind fun _ => ih hrest

theorem asks_subscript {base : Option NodeId} (h : ∀ n, base = some n → n ∈ f.operands node) :
    (subscript base).Asks f node absent collected := by
  cases base with
  | none => trivial
  | some n => exact (asks_types (h n rfl)).bind fun _ => trivial

theorem asks_coalesce (hk : f.kind node = .coalesce) : (coalesce (f.children node)).Asks f node absent collected := by
  unfold coalesce
  refine (asks_maybe fun n hn => ?_).bind fun _ => (asks_maybe fun n hn => ?_).bind fun _ => trivial
  · cases hc : f.children node <;> simp_all [operands]
  · cases hc : f.children node with
    | nil => simp_all
    | cons left rest => cases rest <;> simp_all [operands]

/-! ## All strategies -/

/-- What the strategy of a node asks. -/
theorem dispatch_asks (x : Index) (node : NodeId) : (dispatch x node).Asks x.forest node [] [] := by
  -- Where the strategy asks for the first child, the first child is an operand.
  have hfirst : x.forest.operands node = (x.forest.children node).head?.toList →
      ∀ n, (x.forest.children node).head? = some n → n ∈ x.forest.operands node := by
    intro ho n hn
    rw [ho, hn]
    exact mem_singleton_self n
  unfold dispatch
  dsimp only
  cases hk : x.forest.kind node with
  | method | function => exact asks_functionResult fun n hn => by simp [operands, hk, hn]
  | property name m => exact asks_property hk
  | parameter name variadic byRef m => exact asks_parameter hk
  | nullableType => exact (asks_all fun n hn => by simpa [operands, hk] using hn).bind fun _ => trivial
  | unionType | intersectionType | ternary | matchExpr => exact asks_all fun n hn => by simpa [operands, hk] using hn
  | var name => exact asks_variableTypes hk
  | classConstant | assign => exact asks_maybe fun n hn => by simpa [operands, hk] using hn
  | compoundAssign op => exact asks_compoundAssign hk
  | staticVariable name =>
    dsimp only
    split
    · next hc => exact asks_types (by simp [operands, hk, hc])
    · trivial
  | new =>
    dsimp only
    split
    · next hc =>
      split
      · exact asks_types (by simp [operands, hk, hc])
      · trivial
    · trivial
  | methodCall | staticCall => exact asks_call (hfirst (by simp [operands, hk]))
  | argument | clone => exact asks_maybe (hfirst (by simp [operands, hk]))
  | propertyFetch | staticPropertyFetch =>
    exact asks_propertyFetch fun ha => hfirst (by simp [operands, hk, ha])
  | classConstantFetch name => exact asks_constant hk
  | coalesce => exact asks_coalesce hk
  | binary op => exact asks_binary hk
  | unary op => exact asks_unary hk
  | arrayLiteral => exact asks_elements fun n hn => .inr ⟨node, by simpa [guardedChildren, hk] using hn⟩
  | arrayAccess => exact asks_subscript (hfirst (by simp [operands, hk]))
  | matchArm isDefault => exact asks_maybe fun n hn => by simp [operands, hk, hn]
  | _ => trivial

end Strategy

end EventAtlas
