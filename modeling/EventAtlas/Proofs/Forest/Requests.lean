import EventAtlas.Proofs.Forest.Growth

/-!
# What lowering asks for

A phrase is lowered by adding nodes and by asking for the nodes of phrases inside of it. Which phrases these are depends
on the phrase alone, not on the forest or on the answers: `requests` lists them, in the order in which they are asked for
and with the form in which each is wanted. `Asks` says of a step of lowering that it asks for exactly these and does
nothing else but add nodes. All that is known of every lowering step, whatever lowers the phrases inside, follows by one
induction over `Asks`. Beside it, `Step` keeps account of the nodes without a parent that the step is given and hands out.

All requests are for phrases with fewer levels, so the bound on the levels never cuts a phrase off.
-/

namespace EventAtlas

open List

namespace Syntax.Tree

variable {t u : Tree} {n : Nat}

theorem height_lt_of_mem_children (h : u ∈ t.children) : u.height < t.height := by
  have hle : ∀ {cs : List Tree}, u ∈ cs → u.height ≤ height.heights cs := by
    intro cs hu
    induction cs with
    | nil => cases hu
    | cons c rest ih =>
      rw [height.heights]
      rcases mem_cons.mp hu with rfl | hu
      · exact Nat.le_max_left _ _
      · exact Nat.le_trans (ih hu) (Nat.le_max_right _ _)
  cases t with
  | node k r e cs => exact Nat.lt_succ_of_le (hle h)

theorem height_pos (t : Tree) : 0 < t.height := by
  cases t with
  | node k r e cs => exact Nat.succ_pos _

section

variable (ht : t.height ≤ n)
include ht

theorem phrase_lt ⦃u : Tree⦄ (hu : u ∈ t.phrases) : u.height < n :=
  Nat.lt_of_lt_of_le (height_lt_of_mem_children (mem_filter.mp hu).1) ht

theorem part_lt ⦃u : Tree⦄ (hu : u ∈ t.parts) : u.height < n :=
  Nat.lt_of_lt_of_le (height_lt_of_mem_children (mem_filter.mp hu).1) ht

theorem first_lt ⦃u : Tree⦄ (hu : u ∈ t.parts.head?) : u.height < n :=
  part_lt ht (mem_of_mem_head? hu)

theorem second_lt ⦃u : Tree⦄ (hu : u ∈ (t.parts.drop 1).head?) : u.height < n :=
  part_lt ht (mem_of_mem_drop (mem_of_mem_head? hu))

theorem last_lt ⦃u : Tree⦄ (hu : u ∈ t.parts.getLast?) : u.height < n :=
  part_lt ht (mem_of_mem_getLast? hu)

theorem found_lt {p : Tree → Bool} ⦃u : Tree⦄ (hu : u ∈ t.parts.find? p) : u.height < n :=
  part_lt ht (mem_of_find?_eq_some hu)

theorem role_lt {r : Role} ⦃u : Tree⦄ (hu : u ∈ t.part? r) : u.height < n :=
  Nat.lt_of_lt_of_le (height_lt_of_mem_children (mem_of_find?_eq_some hu)) ht

theorem beside_lt {r : Role} ⦃u : Tree⦄ (hu : u ∈ t.partsBeside r) : u.height < n :=
  Nat.lt_of_lt_of_le (height_lt_of_mem_children (mem_of_mem_eraseP (mem_filter.mp hu).1)) ht

end

theorem or_lt {a b : Option Tree} (ha : ∀ u ∈ a, u.height < n) (hb : ∀ u ∈ b, u.height < n) :
    ∀ u ∈ a.or b, u.height < n := by
  cases a with
  | none => exact hb
  | some t => exact ha

end Syntax.Tree

namespace Lowering

open Syntax Tree

/-- A phrase, and as what it is wanted. -/
abbrev Request := Form × Tree

/-- Each of the phrases in one form. -/
def allAs (form : Form) (ts : List Tree) : List Request :=
  ts.map (Prod.mk form)

/-! ## Steps and what they ask for -/

/-- `m` asks `sub` for the phrases in the list, one after the other, all of fewer than `n` levels, and does nothing else
but add nodes. -/
inductive Asks (sub : Sub) (n : Nat) : {α : Type} → List Request → Build α → Prop
  | pure {α : Type} (a : α) : Asks sub n [] (pure a)
  | push (kind : NodeKind) (e : Extent) (children : List NodeId) : Asks sub n [] (push kind e children)
  | ask (form : Form) {t : Tree} (ht : t.height < n) : Asks sub n [(form, t)] (sub form t)
  | bind {α β : Type} {first more : List Request} {m : Build α} {k : α → Build β} (hm : Asks sub n first m)
    (hk : ∀ a, Asks sub n more (k a)) : Asks sub n (first ++ more) (m >>= k)

/-- `m` asks for the phrases in the list, and it takes over the nodes in `loose` if what it is given for these phrases is
made out of nothing. -/
structure Step (sub : Sub) (n : Nat) (loose : List NodeId) (rs : List Request) (m : Build (List NodeId)) : Prop where
  asks : Asks sub n rs m
  adopts : (∀ form t, t.height < n → Makes (sub form t)) → Adopts loose m

variable {src : Source} {sub : Sub} {n : Nat} {t : Tree}

section Rules

variable {loose ids children : List NodeId} {rs first more : List Request} {m : Build (List NodeId)}
  {k : List NodeId → Build (List NodeId)} {kind : NodeKind}

theorem Step.keep (h : ids.Sublist loose) : Step sub n loose [] (pure ids) :=
  ⟨.pure ids, fun _ => adopts_pure h⟩

theorem Step.nil : Step sub n loose [] (pure []) :=
  .keep (nil_sublist _)

theorem Step.ask (form : Form) (ht : t.height < n) : Step sub n [] [(form, t)] (sub form t) :=
  ⟨.ask form ht, fun hsub => hsub form t ht⟩

/-- First a step that needs no nodes, then one that takes over what it has made. -/
theorem Step.bind (hm : Step sub n [] first m) (hk : ∀ ids, Step sub n (loose ++ ids) more (k ids)) :
    Step sub n loose (first ++ more) (m >>= k) :=
  ⟨hm.asks.bind fun ids => (hk ids).asks, fun hsub => (hm.adopts hsub).bind fun ids => (hk ids).adopts hsub⟩

/-- First a step that takes over everything, then one that takes over what it hands out. -/
theorem Step.andThen (hm : Step sub n loose first m) (hk : ∀ ids, Step sub n ids more (k ids)) :
    Step sub n loose (first ++ more) (m >>= k) :=
  ⟨hm.asks.bind fun ids => (hk ids).asks, fun hsub => (hm.adopts hsub).andThen fun ids => (hk ids).adopts hsub⟩

/-- A step after which only nodes are added asks for no more. -/
theorem Step.last (hm : Step sub n [] rs m) (hk : ∀ ids, Step sub n (loose ++ ids) [] (k ids)) :
    Step sub n loose rs (m >>= k) := by
  simpa using hm.bind hk

/-- Before a step that asks, nodes may be added. -/
theorem Step.after (hm : Step sub n [] [] m) (hk : ∀ ids, Step sub n (loose ++ ids) rs (k ids)) :
    Step sub n loose rs (m >>= k) :=
  hm.bind hk

/-- What is made beside nodes that are held is handed out with them. -/
theorem Step.append (hm : Step sub n [] rs m) : Step sub n loose rs (m >>= fun ids => pure (loose ++ ids)) :=
  hm.last fun _ => .keep (.refl _)

/-- A new node takes over its children. -/
theorem push_step {e : Extent} {next : NodeId → Build (List NodeId)} (loose : List NodeId) (hk : kind ≠ .file)
    (hnext : ∀ id, Step sub n (loose ++ [id]) rs (next id)) :
    Step sub n (loose ++ children) rs (push kind e children >>= next) :=
  ⟨(Asks.push kind e children).bind fun id => (hnext id).asks,
    fun hsub => push_bind_adopts loose hk fun id => (hnext id).adopts hsub⟩

theorem one_step (t : Tree) (hk : kind ≠ .file) : Step sub n children [] (one kind t children) :=
  push_step [] hk fun _ => .keep (.refl _)

/-- The nodes that are held and those that are made become the children of one node. -/
theorem Step.node (hm : Step sub n [] rs m) (t : Tree) (hk : kind ≠ .file) :
    Step sub n loose rs (m >>= fun ids => one kind t (loose ++ ids)) :=
  hm.last fun _ => one_step t hk

end Rules

section Lists

variable {lower : Tree → Build (List NodeId)} {f : Tree → List Request} {ts : List Tree} {o : Option Tree}

theorem each_step (h : ∀ t ∈ ts, Step sub n [] (f t) (lower t)) : Step sub n [] (ts.flatMap f) (each lower ts) := by
  induction ts with
  | nil => exact .nil
  | cons t rest ih =>
    obtain ⟨ht, hrest⟩ := forall_mem_cons.mp h
    exact ht.bind fun first => (ih hrest).append

theorem maybe_step (h : ∀ t ∈ o, Step sub n [] (f t) (lower t)) :
    Step sub n [] (o.toList.flatMap f) (maybe lower o) := by
  cases o with
  | none => exact .nil
  | some t => simpa [maybe] using h t rfl

theorem each_step_nil (h : ∀ t, Step sub n [] [] (lower t)) : Step sub n [] [] (each lower ts) := by
  have heach : Step sub n [] (ts.flatMap fun _ => []) (each lower ts) := each_step fun t _ => h t
  rwa [flatMap_eq_nil_iff.mpr fun _ _ => rfl] at heach

theorem each_sub_step (form : Form) (h : ∀ t ∈ ts, t.height < n) :
    Step sub n [] (allAs form ts) (each (sub form) ts) := by
  have heach : Step sub n [] (ts.flatMap fun t => [(form, t)]) (each (sub form) ts) :=
    each_step fun t ht => .ask form (h t ht)
  rwa [← map_eq_flatMap] at heach

theorem maybe_sub_step (form : Form) (h : ∀ t ∈ o, t.height < n) :
    Step sub n [] (allAs form o.toList) (maybe (sub form) o) := by
  cases o with
  | none => exact .nil
  | some t => exact .ask form (h t rfl)

end Lists

/-! ## Names, types and functions -/

theorem nameNode_step (role : NameRole) (t : Tree) : Step sub n [] [] (nameNode src role t) :=
  one_step t (by simp)

theorem variableNode_step (t : Tree) : Step sub n [] [] (variableNode src t) :=
  one_step t (by simp)

theorem docNodes_step (doc : Option Tree) : Step sub n [] [] (maybe (docNode src) doc) := by
  cases doc with
  | none => exact .nil
  | some t => exact one_step t (by simp)

theorem clauseNames_step (role : NameRole) (t : Tree) : Step sub n [] [] (clauseNames src role t) :=
  each_step_nil fun c => nameNode_step role c

theorem usedVariable_step (t : Tree) : Step sub n [] [] (usedVariable src t) := by
  unfold usedVariable
  generalize (if t.kind = .byReference then t.parts.head?.getD t else t) = v
  dsimp only
  split
  · exact variableNode_step v
  · exact .nil

theorem importNodes_step (t : Tree) : Step sub n [] [] (importNodes src t) := by
  unfold importNodes
  dsimp only
  generalize (Import.ofText? (src.words t)).getD [] = imports
  induction imports with
  | nil => exact .nil
  | cons i rest ih =>
    rw [mapM_cons]
    exact push_step [] (by simp) fun id => ih.append

theorem createdNode_further_step (t : Tree) : Step sub n [] [] (createdNode src sub false t) := by
  unfold createdNode
  split
  · exact .nil
  · split
    · exact one_step t (by simp)
    · exact .nil

section Parts

variable (ht : t.height ≤ n)
include ht

theorem flat_step : Step sub n [] (allAs .phrase t.parts) (flat sub t) :=
  each_sub_step .phrase (part_lt ht)

/-- The requests of a declared type. -/
def typeRequests (t : Tree) : List Request :=
  match t.kind with
  | .typeName | .primitiveType => []
  | .optionalType => allAs .type t.parts.head?.toList
  | .unionType | .typeList | .intersectionType => allAs .type t.parts
  | k => if k.isName then [] else allAs .type t.parts.head?.toList

theorem type_step : Step sub n [] (typeRequests t) (type src sub t) := by
  unfold type
  split <;> simp only [typeRequests, *]
  · exact nameNode_step _ _
  · exact nameNode_step _ _
  · exact (maybe_sub_step .type (first_lt ht)).node t (by simp)
  · exact (each_sub_step .type (part_lt ht)).node t (by simp)
  · exact (each_sub_step .type (part_lt ht)).node t (by simp)
  · exact (each_sub_step .type (part_lt ht)).node t (by simp)
  · cases t.kind.isName with
    | true => exact nameNode_step _ _
    | false =>
      have hfirst : ∀ u ∈ t.parts.head?, u.height < n := first_lt ht
      generalize t.parts.head? = first at hfirst ⊢
      cases first with
      | some inner => exact .ask .type (hfirst inner rfl)
      | none =>
        cases (Text.trim (src.words t)).isEmpty with
        | true => exact .nil
        | false => exact nameNode_step _ _

theorem typePart_lt : ∀ u ∈ typePart? t, u.height < n :=
  or_lt (role_lt ht) (found_lt ht)

/-- The requests of one parameter. -/
def parameterRequests (t : Tree) : List Request :=
  allAs .type (typePart? t).toList ++ allAs .value (t.part? .defaultValue).toList

theorem parameterNode_step : Step sub n [] (parameterRequests t) (parameterNode src sub t) := by
  unfold parameterNode
  refine (maybe_sub_step .type (typePart_lt ht)).bind fun typed => ?_
  exact (maybe_sub_step .value (role_lt ht)).node t (by simp)

/-- The requests of the parameters of what has them. -/
def parametersRequests (t : Tree) : List Request :=
  (t.part? .parameters).toList.flatMap fun list => (list.parts.filter fun p => p.kind.isParameter).flatMap parameterRequests

theorem parametersOf_step : Step sub n [] (parametersRequests t) (parametersOf src sub t) := by
  refine maybe_step fun list hlist => each_step fun p hp => parameterNode_step ?_
  have hlist := role_lt ht hlist
  exact Nat.le_of_lt (part_lt (Nat.le_of_lt hlist) (mem_filter.mp hp).1)

/-- The requests of a function, a method or a closure. -/
def functionRequests (t : Tree) : List Request :=
  parametersRequests t ++ (allAs .type (t.part? .returnType).toList ++ allAs .phrase (t.part? .body).toList)

theorem functionNode_step (doc : List NodeId) : Step sub n doc (functionRequests t) (functionNode src sub doc t) := by
  unfold functionNode
  refine (parametersOf_step ht).bind fun ps => ?_
  refine (maybe_sub_step .type (role_lt ht)).bind fun returned => ?_
  exact (maybe_sub_step .phrase (role_lt ht)).last fun body => one_step t (by split <;> simp)

theorem closureNode_step : Step sub n [] (functionRequests t) (closureNode src sub t) := by
  unfold closureNode
  refine (parametersOf_step ht).bind fun ps => ?_
  refine Step.after (each_step_nil fun c => each_step_nil fun v => usedVariable_step v) fun used => ?_
  refine (maybe_sub_step .type (role_lt ht)).bind fun returned => ?_
  exact (maybe_sub_step .phrase (role_lt ht)).node t (by simp)

/-- The requests of an arrow function. -/
def arrowRequests (t : Tree) : List Request :=
  parametersRequests t ++ (allAs .type (t.part? .returnType).toList ++ allAs .value (t.part? .body).toList)

theorem arrowNode_step : Step sub n [] (arrowRequests t) (arrowNode src sub t) := by
  unfold arrowNode
  refine (parametersOf_step ht).bind fun ps => ?_
  refine (maybe_sub_step .type (role_lt ht)).bind fun returned => ?_
  exact (maybe_sub_step .value (role_lt ht)).node t (by simp)

/-! ## Declarations -/

theorem initialValue_lt : ∀ u ∈ initialValue? t, u.height < n := by
  refine or_lt (role_lt ht) fun u hu => ?_
  obtain ⟨p, hp, rfl⟩ := Option.map_eq_some_iff.mp hu
  have hp : p.height < n := by
    split at hp
    · exact beside_lt ht (mem_of_mem_head? hp)
    · exact part_lt ht (mem_of_mem_eraseP (mem_of_mem_head? hp))
  split
  · cases hinner : p.parts.head? with
    | none => exact hp
    | some inner => exact first_lt (Nat.le_of_lt hp) hinner
  · exact hp

/-- The requests of one property of a declaration. -/
def propertyRequests (typed : Option Tree) (t : Tree) : List Request :=
  allAs .type typed.toList ++ allAs .value (initialValue? t).toList

section Properties

variable {typed : Option Tree} (htyped : ∀ u ∈ typed, u.height < n) (mods : Modifiers)
include htyped

theorem propertyNode_step (docs : List NodeId) :
    Step sub n docs (propertyRequests typed t) (propertyNode src sub mods typed docs t) := by
  unfold propertyNode
  refine (maybe_sub_step .type htyped).bind fun type => ?_
  exact (maybe_sub_step .value (initialValue_lt ht)).node t (by simp)

omit ht in
theorem furtherProperties_step {ts : List Tree} (hts : ∀ t ∈ ts, t.height ≤ n) (text : Option String) :
    Step sub n [] (ts.flatMap (propertyRequests typed)) (furtherProperties src sub mods typed text ts) := by
  refine each_step fun t ht => ?_
  cases text with
  | none => exact propertyNode_step (hts t ht) htyped mods []
  | some text => exact (one_step t (by simp)).after fun docs => propertyNode_step (hts t ht) htyped mods docs

end Properties

/-- The properties of a declaration whose documentation has its node. -/
def propertiesFrom (src : Source) (sub : Sub) (doc : Option Tree) (t : Tree) (docs : List NodeId) :
    Build (List NodeId) :=
  match t.parts.filter isNamedProperty with
  | [] => return []
  | first :: rest => do
    let head ← propertyNode src sub (modifiersOf src t) (typePart? t) docs first
    let more ← furtherProperties src sub (modifiersOf src t) (typePart? t) (doc.map src.words) rest
    return head ++ more

theorem propertiesFrom_step (doc : Option Tree) (docs : List NodeId) :
    Step sub n docs ((t.parts.filter isNamedProperty).flatMap (propertyRequests (typePart? t)))
      (propertiesFrom src sub doc t docs) := by
  have hlt : ∀ p ∈ t.parts.filter isNamedProperty, p.height ≤ n :=
    fun p hp => Nat.le_of_lt (part_lt ht (mem_filter.mp hp).1)
  unfold propertiesFrom
  generalize t.parts.filter isNamedProperty = ps at hlt ⊢
  cases ps with
  | nil => exact .nil
  | cons first rest =>
    obtain ⟨hfirst, hrest⟩ := forall_mem_cons.mp hlt
    refine (propertyNode_step hfirst (typePart_lt ht) _ docs).andThen fun head => ?_
    exact (furtherProperties_step (typePart_lt ht) _ hrest _).append

/-- The requests of one constant of a declaration. -/
def constantRequests (typed : Option Tree) (t : Tree) : List Request :=
  allAs .type typed.toList ++ allAs .value (t.parts.drop 1).head?.toList

theorem constantNode_step {typed : Option Tree} (htyped : ∀ u ∈ typed, u.height < n)
    (docs : List NodeId) : Step sub n docs (constantRequests typed t) (constantNode src sub typed docs t) := by
  unfold constantNode
  refine (maybe_sub_step .type htyped).bind fun type => ?_
  exact (maybe_sub_step .value (second_lt ht)).node t (by simp)

theorem constantNodes_step (docs : List NodeId) :
    Step sub n docs ((t.parts.filter isNamedConstant).flatMap (constantRequests (typePart? t)))
      (constantNodes src sub docs t) := by
  have hlt : ∀ c ∈ t.parts.filter isNamedConstant, c.height ≤ n :=
    fun c hc => Nat.le_of_lt (part_lt ht (mem_filter.mp hc).1)
  unfold constantNodes
  generalize t.parts.filter isNamedConstant = cs at hlt ⊢
  cases cs with
  | nil => exact .nil
  | cons first rest =>
    obtain ⟨hfirst, hrest⟩ := forall_mem_cons.mp hlt
    refine (constantNode_step hfirst (typePart_lt ht) docs).andThen fun head => ?_
    refine Step.last (each_step fun c hc => ?_) fun more => .keep (.refl _)
    exact constantNode_step (hrest c hc) (typePart_lt ht) []

/-- The requests of the members of a class; `pending` is the documentation before the next one. -/
def memberRequests (src : Source) (pending : Option Tree) : List Tree → List Request
  | [] => []
  | t :: rest =>
    if t.kind = .comment then memberRequests src (if isDoc src t then some t else pending) rest
    else if t.kind = .traitUse then memberRequests src none rest
    else if t.kind.isDocumented then (.declared pending, t) :: memberRequests src none rest
    else memberRequests src none rest

omit ht in
theorem memberNodes_step {ts : List Tree} (hts : ∀ t ∈ ts, t.height < n) (pending : Option Tree) :
    Step sub n [] (memberRequests src pending ts) (memberNodes src sub pending ts) := by
  induction ts generalizing pending with
  | nil => exact .nil
  | cons t rest ih =>
    obtain ⟨ht, hrest⟩ := forall_mem_cons.mp hts
    unfold memberNodes memberRequests
    by_cases hcomment : t.kind = .comment
    · simp only [hcomment, if_true]
      exact ih hrest _
    by_cases huse : t.kind = .traitUse
    · simp only [huse, reduceCtorEq, if_true, if_false]
      refine Step.after (clauseNames_step .traitUse t) fun names => ?_
      exact (one_step t (by simp)).andThen fun use => (ih hrest none).append
    simp only [hcomment, huse, if_false]
    cases t.kind.isDocumented with
    | true => exact (Step.ask (.declared pending) ht).bind fun nodes => (ih hrest none).append
    | false => exact ih hrest none

/-- The requests of a part of a class-like declaration. -/
def classPartRequests (src : Source) (owner : Kind) (t : Tree) : List Request :=
  match owner, t.kind with
  | _, .memberList => memberRequests src none t.phrases
  | .traitDeclaration, _ => []
  | _, .baseClause => []
  | .interfaceDeclaration, _ => []
  | _, .interfaceClause => []
  | _, .caseList => memberRequests src none t.phrases
  | _, _ => []

theorem classPart_step (owner : Kind) : Step sub n [] (classPartRequests src owner t) (classPart src sub owner t) := by
  unfold classPart
  split <;> simp only [classPartRequests, *]
  · exact memberNodes_step (phrase_lt ht) none
  · exact .nil
  · exact clauseNames_step _ t
  · exact .nil
  · exact clauseNames_step _ t
  · exact memberNodes_step (phrase_lt ht) none
  · exact .nil

/-- The requests of a class-like declaration. -/
def classRequests (src : Source) (t : Tree) : List Request :=
  t.parts.flatMap (classPartRequests src t.kind)

theorem classNode_step (doc : List NodeId) : Step sub n doc (classRequests src t) (classNode src sub doc t) := by
  unfold classNode
  refine Step.last (each_step fun p hp => ?_) fun parts => one_step t (by split <;> simp)
  exact classPart_step (Nat.le_of_lt (part_lt ht hp)) t.kind

/-- A declaration whose documentation has its node. -/
def declarationFrom (src : Source) (sub : Sub) (doc : Option Tree) (t : Tree) (docs : List NodeId) :
    Build (List NodeId) :=
  match t.kind with
  | .propertyDeclaration => propertiesFrom src sub doc t docs
  | .constDeclaration => constantNodes src sub docs t
  | .classDeclaration | .enumDeclaration | .interfaceDeclaration | .traitDeclaration => classNode src sub docs t
  | _ => functionNode src sub docs t

omit ht in
theorem declaration_eq (src : Source) (sub : Sub) (doc : Option Tree) (t : Tree) :
    declaration src sub doc t = (do
      let docs ← maybe (docNode src) doc
      declarationFrom src sub doc t docs) := by
  unfold declaration
  split <;> simp only [declarationFrom, *]
  rfl

/-- The requests of a declaration. -/
def declarationRequests (src : Source) (t : Tree) : List Request :=
  match t.kind with
  | .propertyDeclaration => (t.parts.filter isNamedProperty).flatMap (propertyRequests (typePart? t))
  | .constDeclaration => (t.parts.filter isNamedConstant).flatMap (constantRequests (typePart? t))
  | .classDeclaration | .enumDeclaration | .interfaceDeclaration | .traitDeclaration => classRequests src t
  | _ => functionRequests t

theorem declarationFrom_step (doc : Option Tree) (docs : List NodeId) :
    Step sub n docs (declarationRequests src t) (declarationFrom src sub doc t docs) := by
  unfold declarationFrom
  split <;> simp only [declarationRequests, *]
  · exact propertiesFrom_step ht doc docs
  · exact constantNodes_step ht docs
  iterate 4 · exact classNode_step ht docs
  · exact functionNode_step ht docs

theorem declaration_step (doc : Option Tree) :
    Step sub n [] (declarationRequests src t) (declaration src sub doc t) := by
  rw [declaration_eq]
  exact (docNodes_step doc).after fun docs => declarationFrom_step ht doc docs

/-! ## Statements -/

/-- The requests of one phrase in a list of statements. A namespace without a block asks for nothing itself: what follows
it is asked for in its place in the list. -/
def itemRequests (src : Source) (t : Tree) : List Request :=
  if t.kind = .comment then []
  else if isOpenNamespace t then []
  else if t.kind.isDocumented then declarationRequests src t
  else [(.phrase, t)]

/-- The requests of a list of statements. -/
def sequenceRequests (src : Source) (ts : List Tree) : List Request :=
  ts.flatMap (itemRequests src)

omit ht in
theorem statements_step {ts : List Tree} {k : Nat} (hts : ∀ t ∈ ts, t.height < n) (hk : ts.length < k)
    (pending : Option Tree) : Step sub n [] (sequenceRequests src ts) (statementNodes src sub k pending ts) := by
  induction k generalizing pending ts with
  | zero => simp at hk
  | succ k ih =>
    cases ts with
    | nil => exact docNodes_step pending
    | cons t rest =>
      obtain ⟨ht, hrest⟩ := forall_mem_cons.mp hts
      rw [length_cons, Nat.succ_lt_succ_iff] at hk
      unfold statementNodes
      rw [sequenceRequests, flatMap_cons, itemRequests]
      by_cases hcomment : t.kind = .comment
      · simp only [hcomment, if_true]
        cases isDoc src t with
        | true =>
          exact (docNodes_step pending).after fun flushed => (ih hrest hk (some t)).append
        | false => exact ih hrest hk pending
      simp only [hcomment, if_false]
      cases isOpenNamespace t with
      | true =>
        -- The statements of the namespace and those after it are all that follow.
        have hsplit : rest.flatMap (itemRequests src) =
            sequenceRequests src (rest.takeWhile fun s => s.kind ≠ .namespaceDefinition) ++
              sequenceRequests src (rest.dropWhile fun s => s.kind ≠ .namespaceDefinition) := by
          rw [sequenceRequests, sequenceRequests, ← flatMap_append, takeWhile_append_dropWhile]
        have hpart {ts : List Tree} (hsub : ts.Sublist rest) :
            Step sub n [] (sequenceRequests src ts) (statementNodes src sub k none ts) :=
          ih (fun u hu => hrest u (hsub.subset hu)) (Nat.lt_of_le_of_lt hsub.length_le hk) none
        simp only [if_true, nil_append]
        rw [hsplit]
        refine (docNodes_step pending).after fun flushed => ?_
        refine (hpart (takeWhile_sublist _)).bind fun children => push_step flushed (by simp) fun id => ?_
        refine (hpart (dropWhile_sublist _)).last fun after => .keep ?_
        rw [append_assoc, singleton_append]
      | false =>
        simp only [Bool.false_eq_true, if_false]
        cases t.kind.isDocumented with
        | true =>
          exact (declaration_step (Nat.le_of_lt ht) pending).bind fun nodes =>
            (ih hrest hk none).append
        | false =>
          refine (docNodes_step pending).after fun flushed => ?_
          exact (Step.ask .phrase ht).bind fun nodes => (ih hrest hk none).append

theorem statementsOf_step : Step sub n [] (sequenceRequests src t.phrases) (statementsOf src sub t) :=
  statements_step (phrase_lt ht) (Nat.lt_succ_self _) none

/-- The requests of one variable that is kept between calls. -/
def staticRequests (t : Tree) : List Request :=
  match (t.part? .name).or t.parts.head? with
  | none => []
  | some _ => allAs .value ((t.part? .value).or (t.parts.drop 1).head?).toList

theorem staticNode_step : Step sub n [] (staticRequests t) (staticNode src sub t) := by
  unfold staticNode staticRequests
  cases (t.part? .name).or t.parts.head? with
  | none => exact .nil
  | some v =>
    have hvalue := or_lt (role_lt (r := .value) ht) (second_lt ht)
    exact (maybe_sub_step .value hvalue).node t (by simp)

/-- What a loop binds. -/
def targets (t : Tree) : List Tree :=
  match (t.parts.drop 1).head? with
  | some p =>
    if p.kind = .pair then
      match p.parts with
      | key :: value :: _ => [key, value]
      | _ => []
    else [p]
  | none => []

theorem targets_lt : ∀ u ∈ targets t, u.height < n := by
  unfold targets
  cases hsecond : (t.parts.drop 1).head? with
  | none => simp
  | some p =>
    have hp : p.height < n := second_lt ht hsecond
    dsimp only
    split
    · split
      · next key value rest hparts =>
        intro u hu
        refine part_lt (Nat.le_of_lt hp) (t := p) ?_
        rw [hparts]
        rcases mem_cons.mp hu with rfl | hu
        · exact mem_cons_self
        · rw [mem_singleton.mp hu]
          exact mem_cons_of_mem _ mem_cons_self
      · simp
    · simpa using hp

/-- The requests of a loop over elements. -/
def foreachRequests (t : Tree) : List Request :=
  allAs .value t.parts.head?.toList ++
    (allAs .value (targets t) ++ allAs .phrase ((t.part? .body).or (t.parts.drop 2).head?).toList)

theorem foreachNode_step : Step sub n [] (foreachRequests t) (foreachNode sub t) := by
  have hbody := or_lt (role_lt (r := .body) ht)
    fun _ hu => part_lt ht (mem_of_mem_drop (mem_of_mem_head? (l := t.parts.drop 2) hu))
  have htargets := targets_lt ht
  unfold foreachNode foreachRequests
  refine (maybe_sub_step .value (first_lt ht)).bind fun source => ?_
  have hbound (hasKey : Bool) {ts : List Tree} (hts : ∀ u ∈ ts, u.height < n) :
      Step sub n source (allAs .value ts ++ allAs .phrase ((t.part? .body).or (t.parts.drop 2).head?).toList) (do
        let targets ← each (sub .value) ts
        let body ← maybe (sub .phrase) ((t.part? .body).or (t.parts.drop 2).head?)
        one (.foreach hasKey) t (source ++ targets ++ body)) :=
    (each_sub_step .value hts).bind fun targets =>
      (maybe_sub_step .phrase hbody).node t (by simp)
  unfold targets at htargets ⊢
  generalize (t.parts.drop 1).head? = second at htargets ⊢
  cases second with
  | none => exact hbound false htargets
  | some p =>
    by_cases hpair : p.kind = .pair
    · simp only [hpair, if_true] at htargets ⊢
      generalize p.parts = ps at htargets ⊢
      rcases ps with _ | ⟨key, _ | ⟨value, rest⟩⟩
      · exact hbound false htargets
      · exact hbound false htargets
      · exact hbound true htargets
    · simp only [hpair, if_false] at htargets ⊢
      exact hbound false htargets

/-- The requests of a part of a clause that catches. -/
def catchRequests (t : Tree) : List Request :=
  match t.kind with
  | .variableName => []
  | .compoundStatement => [(.phrase, t)]
  | _ => []

omit ht in
theorem catchPart_step (ht : t.height < n) : Step sub n [] (catchRequests t) (catchPart src sub t) := by
  unfold catchPart
  split <;> simp only [catchRequests, *]
  · exact variableNode_step t
  · exact .ask .phrase ht
  · exact each_step_nil fun c => nameNode_step .typeHint c

/-- The requests of a phrase that is a statement. -/
def statementRequests? (src : Source) (t : Tree) : Option (List Request) :=
  match t.kind with
  | .compoundStatement => some (sequenceRequests src t.phrases)
  | .expressionStatement | .returnStatement | .controlFlow _ => some (allAs .phrase t.parts)
  | .namespaceDefinition =>
    some ((t.part? .body).toList.flatMap fun body => sequenceRequests src body.phrases)
  | .importDeclaration => some []
  | .foreachStatement => some (foreachRequests t)
  | .catchClause => some (t.parts.flatMap catchRequests)
  | .staticDeclaration => some ((t.parts.filter fun c => c.kind = .staticVariable).flatMap staticRequests)
  | k => if k.isDocumented then some (declarationRequests src t) else none

/-- Both are there or none is, and what is there belongs together. -/
theorem statement?_step : Option.Rel (Step sub n []) (statementRequests? src t) (statement? src sub t) := by
  unfold statement?
  split <;> simp only [statementRequests?, *]
  · exact .some ((statementsOf_step ht).node t (by simp))
  iterate 3 · exact .some ((flat_step ht).node t (by simp))
  · refine .some (Step.node (maybe_step fun body hbody => ?_) t (by simp))
    exact statementsOf_step (Nat.le_of_lt (role_lt ht hbody))
  · exact .some (importNodes_step t)
  · exact .some (foreachNode_step ht)
  · refine .some (Step.node (each_step fun c hc => ?_) t (by simp))
    exact catchPart_step (part_lt ht hc)
  · refine .some (each_step fun c hc => staticNode_step ?_)
    exact Nat.le_of_lt (part_lt ht (mem_filter.mp hc).1)
  · cases t.kind.isDocumented with
    | true => exact .some (declaration_step ht none)
    | false => exact .none

/-! ## Values -/

theorem leftSide_lt : ∀ u ∈ leftSide? t, u.height < n :=
  or_lt (role_lt ht) (first_lt ht)

theorem rightSide_lt : ∀ u ∈ rightSide? t, u.height < n :=
  or_lt (role_lt ht) (last_lt ht)

/-- The requests of a class in an expression. -/
def scopeRequests (t : Tree) : List Request :=
  if t.kind.isName then [] else [(.value, t)]

omit ht in
theorem scopeNode_step (ht : t.height < n) : Step sub n [] (scopeRequests t) (scopeNode src sub t) := by
  unfold scopeNode scopeRequests
  cases t.kind.isName with
  | true => exact nameNode_step _ t
  | false => exact .ask .value ht

omit ht in
theorem maybe_scope_step {o : Option Tree} (ho : ∀ u ∈ o, u.height < n) :
    Step sub n [] (o.toList.flatMap scopeRequests) (maybe (scopeNode src sub) o) :=
  maybe_step fun u hu => scopeNode_step (ho u hu)

/-- The requests of the two sides of a phrase. -/
def sidesRequests (t : Tree) : List Request :=
  allAs .value (leftSide? t).toList ++ allAs .value (rightSide? t).toList

theorem sides_step : Step sub n [] (sidesRequests t) (sides sub t) :=
  (maybe_sub_step .value (leftSide_lt ht)).bind fun _ =>
    (maybe_sub_step .value (rightSide_lt ht)).append

/-- The requests of one argument of a call. -/
def argumentRequests (t : Tree) : List Request :=
  match t.kind with
  | .argument => allAs .value (argumentValue? t).toList
  | .variadicUnpacking => allAs .value t.parts.head?.toList
  | .mark "variadic_placeholder" => []
  | _ => [(.value, t)]

theorem argumentValue_lt : ∀ u ∈ argumentValue? t, u.height < n := by
  intro u hu
  obtain ⟨v, hv, hu⟩ := Option.bind_eq_some_iff.mp hu
  have hlt : v.height < n := beside_lt ht (mem_of_mem_getLast? hv)
  split at hu
  · exact first_lt (Nat.le_of_lt hlt) hu
  · rwa [← Option.some.inj hu]

omit ht in
theorem argumentNode_step (ht : t.height < n) : Step sub n [] (argumentRequests t) (argumentNode src sub t) := by
  unfold argumentNode
  split <;> simp only [argumentRequests, *]
  · exact (maybe_sub_step .value (argumentValue_lt (Nat.le_of_lt ht))).node t (by simp)
  · exact (maybe_sub_step .value (first_lt (Nat.le_of_lt ht))).node t (by simp)
  · exact .nil
  · exact (Step.ask .value ht).node t (by simp)

/-- The requests of the arguments of a call. -/
def argumentsRequests (t : Tree) : List Request :=
  ((t.part? .arguments).or (t.parts.find? fun c => c.kind = .arguments)).toList.flatMap fun list =>
    list.parts.flatMap argumentRequests

theorem argumentsOf_step : Step sub n [] (argumentsRequests t) (argumentsOf src sub t) := by
  refine maybe_step fun list hlist => each_step fun c hc => argumentNode_step ?_
  have hlt : list.height < n := or_lt (role_lt ht) (found_lt ht) list hlist
  exact part_lt (Nat.le_of_lt hlt) hc

/-- The requests of the first part of a new object. -/
def createdRequests (t : Tree) : List Request :=
  if t.kind = .arguments then [] else if t.kind = .anonymousClass then [] else scopeRequests t

omit ht in
theorem createdNode_step (ht : t.height < n) : Step sub n [] (createdRequests t) (createdNode src sub true t) := by
  unfold createdNode createdRequests
  by_cases hargs : t.kind = .arguments
  · simp only [hargs, if_true]
    exact .nil
  by_cases hclass : t.kind = .anonymousClass
  · simp only [hclass, reduceCtorEq, if_true, if_false]
    exact one_step t (by simp)
  simp only [hargs, hclass, if_true, if_false]
  exact scopeNode_step ht

/-- The requests of a new object. -/
def newRequests (t : Tree) : List Request :=
  (t.parts.take 1).flatMap createdRequests ++ argumentsRequests t

theorem newNode_step : Step sub n [] (newRequests t) (newNode src sub t) := by
  unfold newNode
  refine (each_step fun c hc => createdNode_step (part_lt ht (mem_of_mem_take hc))).bind fun named => ?_
  refine (each_step_nil fun c => createdNode_further_step c).after fun more => ?_
  exact (argumentsOf_step ht).node t (by simp)

/-- The requests of a call of a function. -/
def callRequests (t : Tree) : List Request :=
  (t.part? .function).toList.flatMap scopeRequests ++ argumentsRequests t

theorem callNode_step : Step sub n [] (callRequests t) (callNode src sub t) := by
  have htail (callee : List NodeId) :
      Step sub n callee (argumentsRequests t)
        (argumentsOf src sub t >>= fun args => one .functionCall t (callee ++ args)) :=
    (argumentsOf_step ht).node t (by simp)
  have hlt : ∀ u ∈ t.part? .function, u.height < n := role_lt ht
  unfold callNode callRequests
  generalize t.part? .function = callee at hlt ⊢
  cases callee with
  | none => exact htail []
  | some f =>
    simp only [Option.toList_some, flatMap_singleton, scopeRequests]
    cases f.kind.isName with
    | true => exact (nameNode_step _ f).after htail
    | false => exact (Step.ask .value (hlt f rfl)).bind htail

/-- The requests of a conditional. -/
def conditionalRequests (t : Tree) : List Request :=
  let body := (t.part? .body).or (if 3 ≤ t.parts.length then (t.parts.drop 1).head? else none)
  let sides := [(t.part? .condition).or t.parts.head?, body, (t.part? .alternative).or t.parts.getLast?]
  allAs .value (sides.filterMap id)

theorem conditionalNode_step : Step sub n [] (conditionalRequests t) (conditionalNode sub t) := by
  have hrole {r : Role} : ∀ u ∈ t.part? r, u.height < n := role_lt ht
  have hbody : ∀ u ∈ if 3 ≤ t.parts.length then (t.parts.drop 1).head? else none, u.height < n := by
    intro u hu
    split at hu
    · exact second_lt ht hu
    · cases hu
  refine (each_sub_step .value fun u hu => ?_).node t (by simp)
  obtain ⟨side, hside, hu⟩ := mem_filterMap.mp hu
  simp only [mem_cons, not_mem_nil, or_false] at hside
  rcases hside with rfl | rfl | rfl
  · exact or_lt hrole (first_lt ht) u hu
  · exact or_lt hrole hbody u hu
  · exact or_lt hrole (last_lt ht) u hu

/-- The requests of an operator between two operands. -/
def binaryRequests (src : Source) (t : Tree) : List Request :=
  if Text.sameLetters (operatorWords src t) "instanceof" then
    allAs .value (leftSide? t).toList ++ (rightSide? t).toList.flatMap scopeRequests
  else sidesRequests t

theorem binaryNode_step : Step sub n [] (binaryRequests src t) (binaryNode src sub t) := by
  unfold binaryNode binaryRequests
  dsimp only
  cases Text.sameLetters (operatorWords src t) "instanceof" with
  | true =>
    refine (maybe_sub_step .value (leftSide_lt ht)).bind fun left => ?_
    exact (maybe_scope_step (rightSide_lt ht)).node t (by simp)
  | false =>
    refine (sides_step ht).last fun children => one_step t ?_
    split <;> simp

theorem unaryNode_step : Step sub n [] (allAs .value t.parts.head?.toList) (unaryNode src sub t) := by
  have hlt : ∀ u ∈ t.parts.head?, u.height < n := first_lt ht
  unfold unaryNode
  generalize t.parts.head? = first at hlt ⊢
  cases first with
  | none => exact one_step t (by simp)
  | some inner => exact (Step.ask .value (hlt inner rfl)).node t (by simp)

/-- The requests of a cast. -/
def castRequests (t : Tree) : List Request :=
  allAs .value ((t.part? .value).or t.parts.getLast?).toList

theorem castNode_step : Step sub n [] (castRequests t) (castNode src sub t) :=
  (maybe_sub_step .value (or_lt (role_lt ht) (last_lt ht))).node t (by simp)

/-- The requests of one arm of a match. -/
def armRequests (t : Tree) : List Request :=
  (t.part? .conditions).toList.flatMap (fun c => allAs .phrase c.parts) ++
    allAs .value ((t.part? .result).or t.parts.getLast?).toList

theorem armNode_step : Step sub n [] (armRequests t) (armNode sub t) := by
  unfold armNode
  refine (maybe_step fun c hc => flat_step (Nat.le_of_lt (role_lt ht hc))).bind fun conditions => ?_
  refine Step.node (maybe_sub_step .value ?_) t (by simp)
  exact or_lt (role_lt ht) (last_lt ht)

/-- The requests of a match. -/
def matchRequests (t : Tree) : List Request :=
  allAs .value (t.part? .condition).toList ++
    ((t.part? .body).or (t.parts.find? fun p => p.kind = .matchBlock)).toList.flatMap fun b => b.parts.flatMap armRequests

theorem matchNode_step : Step sub n [] (matchRequests t) (matchNode sub t) := by
  unfold matchNode
  refine (maybe_sub_step .value (role_lt ht)).bind fun condition => ?_
  refine Step.node (maybe_step fun b hb => each_step fun c hc => armNode_step ?_) t (by simp)
  have hlt : b.height < n := or_lt (role_lt ht) (found_lt ht) b hb
  exact Nat.le_of_lt (part_lt (Nat.le_of_lt hlt) hc)

/-- The requests of an element of an array. -/
def elementRequests (t : Tree) : List Request :=
  if t.kind = .arrayElement then allAs .phrase t.parts else [(.phrase, t)]

omit ht in
theorem elementNodes_step (ht : t.height < n) : Step sub n [] (elementRequests t) (elementNodes sub t) := by
  unfold elementNodes elementRequests
  by_cases hkind : t.kind = .arrayElement
  · simp only [hkind, if_true]
    exact flat_step (Nat.le_of_lt ht)
  · simp only [hkind, if_false]
    exact .ask .phrase ht

/-- The requests of a phrase as a value. -/
def valueRequests (src : Source) (t : Tree) : List Request :=
  match t.kind with
  | .parenthesized | .byReference | .errorSuppression => allAs .value t.parts.head?.toList
  | .variableName | .name | .qualifiedName | .integer | .float | .string | .boolean | .null | .anonymousClass => []
  | .assignment | .referenceAssignment | .augmentedAssignment => sidesRequests t
  | .objectCreation => newRequests t
  | .memberCall _ => allAs .value (t.part? .object).toList ++ argumentsRequests t
  | .scopedCall => (t.part? .scope).toList.flatMap scopeRequests ++ argumentsRequests t
  | .functionCall => callRequests t
  | .memberAccess _ => allAs .value (t.part? .object).toList
  | .scopedProperty => (t.part? .scope).toList.flatMap scopeRequests
  | .classConstant => t.parts.head?.toList.flatMap scopeRequests
  | .conditional => conditionalRequests t
  | .binary => binaryRequests src t
  | .unary | .update => allAs .value t.parts.head?.toList
  | .cast => castRequests t
  | .clone | .subscript | .listLiteral => allAs .phrase t.parts
  | .matchExpression => matchRequests t
  | .closure => functionRequests t
  | .arrowFunction => arrowRequests t
  | .arrayCreation => t.parts.flatMap elementRequests
  | k =>
    if k.isSkipped then []
    else if isStatementValue k then (statementRequests? src t).getD []
    else allAs .phrase t.parts

theorem value_step : Step sub n [] (valueRequests src t) (value src sub t) := by
  unfold value
  split <;> simp only [valueRequests, *]
  iterate 3 · exact maybe_sub_step .value (first_lt ht)
  · exact variableNode_step t
  iterate 2 · exact nameNode_step .constant t
  iterate 5 · exact one_step t (by simp)
  iterate 3 · exact (sides_step ht).node t (by simp)
  · exact newNode_step ht
  · exact (maybe_sub_step .value (role_lt ht)).bind fun object =>
      (argumentsOf_step ht).node t (by simp)
  · exact (maybe_scope_step (role_lt ht)).bind fun scope =>
      (argumentsOf_step ht).node t (by simp)
  · exact callNode_step ht
  · exact (maybe_sub_step .value (role_lt ht)).node t (by simp)
  · exact (maybe_scope_step (role_lt ht)).node t (by simp)
  · exact (maybe_scope_step (first_lt ht)).node t (by simp)
  · exact conditionalNode_step ht
  · exact binaryNode_step ht
  iterate 2 · exact unaryNode_step ht
  · exact castNode_step ht
  · exact (flat_step ht).node t (by simp)
  · exact matchNode_step ht
  · exact closureNode_step ht
  · exact arrowNode_step ht
  · exact (each_step fun c hc => elementNodes_step (part_lt ht hc)).node t (by simp)
  iterate 2 · exact (flat_step ht).node t (by simp)
  · exact one_step t (by simp)
  · cases t.kind.isSkipped with
    | true => exact .nil
    | false =>
      cases isStatementValue t.kind with
      | false => exact (flat_step ht).node t (by simp)
      | true =>
        have hstatement : Option.Rel (Step sub n []) (statementRequests? src t) (statement? src sub t) :=
          statement?_step ht
        generalize statementRequests? src t = requests, statement? src sub t = nodes at hstatement ⊢
        cases hstatement with
        | none => exact .nil
        | some h => exact h.last fun ids => .keep (take_sublist 1 ids)

/-- The requests of a phrase as a statement, or as a value if it is none. -/
def phraseRequests (src : Source) (t : Tree) : List Request :=
  if t.kind.isSkipped then [] else (statementRequests? src t).getD (valueRequests src t)

theorem phrase_step : Step sub n [] (phraseRequests src t) (phrase src sub t) := by
  have hstatement : Option.Rel (Step sub n []) (statementRequests? src t) (statement? src sub t) :=
    statement?_step ht
  unfold phrase phraseRequests
  cases t.kind.isSkipped with
  | true => exact .nil
  | false =>
    generalize statementRequests? src t = requests, statement? src sub t = nodes at hstatement ⊢
    cases hstatement with
    | none => exact value_step ht
    | some h => exact h

end Parts

/-! ## Phrases of a program -/

/-- The phrases that are asked for when a phrase is lowered, in order. -/
def requests (src : Source) : Form → Tree → List Request
  | .phrase, t => phraseRequests src t
  | .value, t => valueRequests src t
  | .type, t => typeRequests t
  | .declared _, t => declarationRequests src t

theorem lower_step (src : Source) {form : Form} (ht : t.height ≤ n + 1) :
    Step (lower src n) (n + 1) [] (requests src form t) (lower src (n + 1) form t) := by
  cases form with
  | phrase => exact phrase_step ht
  | value => exact value_step ht
  | type => exact type_step ht
  | declared doc => exact declaration_step ht doc

theorem programNode_asks (src : Source) (t : Tree) :
    Asks (lower src t.height) t.height (sequenceRequests src t.phrases) (programNode src t) := by
  have hstatements : Step (lower src t.height) t.height [] (sequenceRequests src t.phrases) _ :=
    statementsOf_step (Nat.le_refl _)
  simpa [programNode] using hstatements.asks.bind fun children => .push .file t.extent children

/-- The phrase is lowered, in this form, in the course of lowering the program. -/
inductive Visited (src : Source) (program : Tree) : Form → Tree → Prop
  | top {form : Form} {t : Tree} (h : (form, t) ∈ sequenceRequests src program.phrases) : Visited src program form t
  | inside {form form' : Form} {t u : Tree} (ht : Visited src program form t) (hu : (form', u) ∈ requests src form t) :
    Visited src program form' u

end Lowering

end EventAtlas
