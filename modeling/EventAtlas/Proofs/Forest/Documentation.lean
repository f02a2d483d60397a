import EventAtlas.Proofs.Forest.Requests

/-!
# Documentation among statements

In a file, in a namespace and in a block no documentation comment is lost. The last one before a declaration becomes the
first child of the declaration; any other one becomes a child of its own, in its place among the statements
(`Forest.arranged_of_sequence`, for every program and all of its files, namespaces and blocks).

The statements of a case of a switch, and those between a colon and the end of a statement, are lowered part by part and
not as a list of statements. No part gives documentation (`Lowering.lower_bare`), so the comments among them are lost
(`Forest.bare_of_controlFlow`).

The nodes of a phrase are never changed once they are made (`Forest.Begins`), so what holds when a list of statements has
been lowered still holds in the forest of the program.
-/

namespace EventAtlas

open List Syntax

namespace Forest

/-- The first nodes of `g` are the nodes of `f`. -/
structure Begins (f g : Forest) : Prop where
  size_le : f.size ≤ g.size
  node_eq : ∀ id < f.size, g.node id = f.node id

namespace Begins

variable {f g h : Forest}

theorem refl (f : Forest) : Begins f f :=
  ⟨Nat.le_refl _, fun _ _ => rfl⟩

theorem trans (hfg : Begins f g) (hgh : Begins g h) : Begins f h := by
  refine ⟨Nat.le_trans hfg.size_le hgh.size_le, fun id hid => ?_⟩
  rw [hgh.node_eq id (Nat.lt_of_lt_of_le hid hfg.size_le), hfg.node_eq id hid]

theorem push (f : Forest) (n : Node) : Begins f (f.push n) := by
  refine ⟨by simp, fun id hid => ?_⟩
  rw [node_push, if_neg (Nat.ne_of_lt hid)]

theorem node_of_push {n : Node} (hg : Begins (f.push n) g) : g.node f.size = n := by
  rw [hg.node_eq f.size (by simp), node_push, if_pos rfl]

end Begins

/-- The node has this kind and is in this place. -/
def IsNodeOf (f : Forest) (kind : NodeKind) (e : Extent) (id : NodeId) : Prop :=
  f.kind id = kind ∧ (f.node id).span = Lowering.spanOf e

end Forest

namespace Lowering

open Forest

variable {src : Source} {sub : Sub} {n : Nat} {t : Tree}

/-! ## Nodes that stay -/

/-- `m` changes no node that is there. -/
def Appends {α : Type} (m : Build α) : Prop :=
  ∀ f, Begins f (m.run f).2

theorem Asks.appends {α : Type} {rs : List Request} {m : Build α} (h : Asks sub n rs m)
    (hsub : ∀ form t, t.height < n → Appends (sub form t)) : Appends m := by
  induction h with
  | pure a => exact fun f => .refl f
  | push kind e children => exact fun f => .push f _
  | ask form ht => exact hsub form _ ht
  | bind hm hk ihm ihk => exact fun f => (ihm f).trans (ihk _ _)

variable {form : Form}

/-- What is asked for is lowered on the way, and its nodes stay. -/
theorem Asks.reached {α : Type} {rs : List Request} {m : Build α} (h : Asks sub n rs m)
    (hsub : ∀ form t, t.height < n → Appends (sub form t)) (hr : (form, t) ∈ rs) (f : Forest) :
    t.height < n ∧ ∃ g, Begins ((sub form t).run g).2 (m.run f).2 := by
  induction h generalizing f with
  | pure a => cases hr
  | push kind e children => cases hr
  | ask form' ht =>
    obtain ⟨rfl, rfl⟩ := Prod.mk.inj (mem_singleton.mp hr)
    exact ⟨ht, f, .refl _⟩
  | bind hm hk ihm ihk =>
    rcases mem_append.mp hr with hr | hr
    · obtain ⟨ht, g, hg⟩ := ihm hr f
      exact ⟨ht, g, hg.trans ((hk _).appends hsub _)⟩
    · exact ihk _ hr _

theorem lower_appends (src : Source) (form : Form) (ht : t.height ≤ n) : Appends (lower src n form t) := by
  induction n generalizing form t with
  | zero => exact absurd (Nat.le_zero.mp ht) (Nat.ne_of_gt t.height_pos)
  | succ n ih => exact (lower_step src ht).asks.appends fun form u hu => ih form (Nat.le_of_lt_succ hu)

/-- A phrase that is visited is lowered with levels enough, and its nodes are in the forest of the program. -/
theorem Visited.reached {program : Tree} (h : Visited src program form t) :
    ∃ n f, t.height ≤ n + 1 ∧ Begins ((lower src (n + 1) form t).run f).2 ((programNode src program).run {}).2 := by
  have hstep {n : Nat} : ∀ form u, u.height < n + 1 → Appends (lower src n form u) :=
    fun form u hu => lower_appends src form (Nat.le_of_lt_succ hu)
  induction h with
  | @top form t h =>
    have hprogram := programNode_asks src program
    have hpos := program.height_pos
    obtain ⟨n, hn⟩ := Nat.exists_eq_add_one_of_ne_zero (Nat.ne_of_gt hpos)
    obtain ⟨ht, g, hg⟩ := hprogram.reached (fun form u hu => lower_appends src form (Nat.le_of_lt hu)) h {}
    rw [hn] at ht hg
    exact ⟨n, g, Nat.le_of_lt ht, hg⟩
  | @inside form form' t u _ hu ih =>
    obtain ⟨n, f, ht, hf⟩ := ih
    obtain ⟨hlt, g, hg⟩ := (lower_step src ht).asks.reached hstep hu f
    obtain ⟨m, rfl⟩ : ∃ m, n = m + 1 := ⟨n - 1, by have := u.height_pos; omega⟩
    exact ⟨m, g, Nat.le_of_lt_succ hlt, hg.trans hf⟩

/-! ## Phrases without documentation -/

/-- The node of a documentation comment. -/
def isDocumentation : NodeKind → Bool
  | .docComment _ => true
  | _ => false

/-- None of the nodes that `m` hands out is documentation. -/
def Bare (m : Build (List NodeId)) : Prop :=
  ∀ f g, Begins (m.run f).2 g → ∀ id ∈ (m.run f).1, isDocumentation (g.kind id) = false

section Rules

variable {kind : NodeKind} {m more : Build (List NodeId)} {lower : Tree → Build (List NodeId)} {ts : List Tree}

theorem bare_nil : Bare (pure []) :=
  fun _ _ _ _ hid => by cases hid

theorem bare_bind {α : Type} {m : Build α} {k : α → Build (List NodeId)} (hk : ∀ a, Bare (k a)) : Bare (m >>= k) :=
  fun f => hk (m.run f).1 (m.run f).2

theorem bare_one (t : Tree) (children : List NodeId) (hkind : isDocumentation kind = false) :
    Bare (one kind t children) := by
  intro f g hg id hid
  obtain rfl : id = f.size := mem_singleton.mp hid
  rw [Forest.kind, hg.node_of_push]
  exact hkind

theorem bare_append (hm : Bare m) (hmore : Bare more) (happends : Appends more) :
    Bare (m >>= fun ids => more >>= fun rest => pure (ids ++ rest)) := by
  intro f g hg id hid
  rcases mem_append.mp hid with hid | hid
  · exact hm f g ((happends _).trans hg) id hid
  · exact hmore _ g hg id hid

theorem each_appends (h : ∀ t ∈ ts, Appends (lower t)) : Appends (each lower ts) := by
  induction ts with
  | nil => exact fun f => .refl f
  | cons t rest ih =>
    obtain ⟨ht, hrest⟩ := forall_mem_cons.mp h
    exact fun f => (ht f).trans (ih hrest _)

theorem bare_each (h : ∀ t ∈ ts, Bare (lower t)) (happends : ∀ t ∈ ts, Appends (lower t)) : Bare (each lower ts) := by
  induction ts with
  | nil => exact bare_nil
  | cons t rest ih =>
    obtain ⟨ht, hrest⟩ := forall_mem_cons.mp h
    have hmore := (forall_mem_cons.mp happends).2
    exact bare_append ht (ih hrest hmore) (each_appends hmore)

theorem bare_maybe {o : Option Tree} (h : ∀ t ∈ o, Bare (lower t)) : Bare (maybe lower o) := by
  cases o with
  | none => exact bare_nil
  | some t => exact h t rfl

end Rules

/-! ## Nodes of a declaration -/

/-- The number of nodes of a declaration: one for each thing that it declares. -/
def declaredCount (t : Tree) : Nat :=
  match t.kind with
  | .propertyDeclaration => (t.parts.filter isNamedProperty).length
  | .constDeclaration => (t.parts.filter isNamedConstant).length
  | _ => 1

/-- `m` hands out `count` nodes, none of them documentation, and the first has the nodes in `docs` as its first
children. -/
structure Carries (docs : List NodeId) (count : Nat) (m : Build (List NodeId)) : Prop where
  length_eq : ∀ f, (m.run f).1.length = count
  bare : Bare m
  docs_first : ∀ f g, Begins (m.run f).2 g → ∀ first ∈ (m.run f).1.head?, docs <+: g.children first

section Rules

variable {docs children : List NodeId} {count : Nat} {head : Build (List NodeId)}

theorem Carries.forget (h : Carries docs count head) : Carries [] count head :=
  ⟨h.length_eq, h.bare, fun _ _ _ _ _ => nil_prefix⟩

theorem carries_nil : Carries docs 0 (pure []) :=
  ⟨fun _ => rfl, bare_nil, fun _ _ _ _ hfirst => by cases hfirst⟩

theorem carries_bind {α : Type} {m : Build α} {k : α → Build (List NodeId)} (hk : ∀ a, Carries docs count (k a)) :
    Carries docs count (m >>= k) :=
  ⟨fun f => (hk (m.run f).1).length_eq (m.run f).2, bare_bind fun a => (hk a).bare,
    fun f => (hk (m.run f).1).docs_first (m.run f).2⟩

theorem carries_one {kind : NodeKind} (t : Tree) (hkind : isDocumentation kind = false) (h : docs <+: children) :
    Carries docs 1 (one kind t children) := by
  refine ⟨fun f => rfl, bare_one t children hkind, ?_⟩
  intro f g hg first hfirst
  obtain rfl : f.size = first := Option.some.inj hfirst
  rw [Forest.children, hg.node_of_push]
  exact h

theorem length_each {lower : Tree → Build (List NodeId)} {ts : List Tree}
    (h : ∀ t ∈ ts, ∀ f, ((lower t).run f).1.length = 1) (f : Forest) : ((each lower ts).run f).1.length = ts.length := by
  induction ts generalizing f with
  | nil => rfl
  | cons t rest ih =>
    obtain ⟨ht, hrest⟩ := forall_mem_cons.mp h
    change (((lower t).run f).1 ++ ((each lower rest).run ((lower t).run f).2).1).length = _
    rw [length_append, ht, ih hrest, length_cons, Nat.add_comm]

/-- The first of several things that are declared takes the documentation. -/
theorem carries_cons {lower : Tree → Build (List NodeId)} {ts : List Tree} (hhead : Carries docs 1 head)
    (hmore : ∀ t ∈ ts, Carries [] 1 (lower t)) (happends : ∀ t ∈ ts, Appends (lower t)) :
    Carries docs (ts.length + 1) (head >>= fun ids => each lower ts >>= fun rest => pure (ids ++ rest)) := by
  have hlength := length_each fun t ht => (hmore t ht).length_eq
  have hbare := bare_each (fun t ht => (hmore t ht).bare) happends
  refine ⟨fun f => ?_, bare_append hhead.bare hbare (each_appends happends), fun f g hg first hfirst => ?_⟩
  · change ((head.run f).1 ++ ((each lower ts).run (head.run f).2).1).length = _
    rw [length_append, hhead.length_eq, hlength, Nat.add_comm]
  · apply hhead.docs_first f g ((each_appends happends _).trans hg)
    obtain ⟨id, hid⟩ := length_eq_one_iff.mp (hhead.length_eq f)
    change first ∈ ((head.run f).1 ++ ((each lower ts).run (head.run f).2).1).head? at hfirst
    rw [hid] at hfirst ⊢
    exact hfirst

end Rules

theorem functionNode_carries (docs : List NodeId) (t : Tree) : Carries docs 1 (functionNode src sub docs t) := by
  apply carries_bind
  intro ps
  apply carries_bind
  intro returned
  apply carries_bind
  intro body
  apply carries_one
  · split <;> rfl
  · rw [append_assoc, append_assoc]
    exact prefix_append _ _

theorem classNode_carries (docs : List NodeId) (t : Tree) : Carries docs 1 (classNode src sub docs t) := by
  apply carries_bind
  intro parts
  apply carries_one t _ (prefix_append _ _)
  split <;> rfl

theorem propertyNode_carries (mods : Modifiers) (typed : Option Tree) (docs : List NodeId) (t : Tree) :
    Carries docs 1 (propertyNode src sub mods typed docs t) := by
  apply carries_bind
  intro type
  apply carries_bind
  intro value
  apply carries_one t rfl
  rw [append_assoc]
  exact prefix_append _ _

theorem constantNode_carries (typed : Option Tree) (docs : List NodeId) (t : Tree) :
    Carries docs 1 (constantNode src sub typed docs t) := by
  apply carries_bind
  intro type
  apply carries_bind
  intro value
  apply carries_one t rfl
  rw [append_assoc]
  exact prefix_append _ _

section Declarations

variable (hsub : ∀ form u, u.height < n → Appends (sub form u)) (ht : t.height ≤ n)
include hsub ht

theorem propertiesFrom_carries (doc : Option Tree) (docs : List NodeId) :
    Carries docs (t.parts.filter isNamedProperty).length (propertiesFrom src sub doc t docs) := by
  have hlt : ∀ p ∈ t.parts.filter isNamedProperty, p.height ≤ n :=
    fun p hp => Nat.le_of_lt (Tree.part_lt ht (mem_filter.mp hp).1)
  unfold propertiesFrom
  generalize t.parts.filter isNamedProperty = ps at hlt ⊢
  cases ps with
  | nil => exact carries_nil
  | cons first rest =>
    have hnode (docs : List NodeId) : ∀ p ∈ rest, Appends (propertyNode src sub (modifiersOf src t) (typePart? t) docs p) :=
      fun p hp => (propertyNode_step ((forall_mem_cons.mp hlt).2 p hp) (typePart_lt ht) _ docs).asks.appends hsub
    cases doc with
    | none =>
      exact carries_cons (propertyNode_carries _ _ docs first) (fun p _ => propertyNode_carries _ _ [] p) (hnode [])
    | some doc =>
      refine carries_cons (propertyNode_carries _ _ docs first) (fun p _ => ?_) fun p hp f => ?_
      · exact carries_bind fun docs => (propertyNode_carries _ _ docs p).forget
      · exact (Begins.push f _).trans (hnode _ p hp _)

theorem constantNodes_carries (docs : List NodeId) :
    Carries docs (t.parts.filter isNamedConstant).length (constantNodes src sub docs t) := by
  have hlt : ∀ c ∈ t.parts.filter isNamedConstant, c.height ≤ n :=
    fun c hc => Nat.le_of_lt (Tree.part_lt ht (mem_filter.mp hc).1)
  unfold constantNodes
  generalize t.parts.filter isNamedConstant = cs at hlt ⊢
  cases cs with
  | nil => exact carries_nil
  | cons first rest =>
    have hnode : ∀ c ∈ rest, Appends (constantNode src sub (typePart? t) [] c) :=
      fun c hc => (constantNode_step ((forall_mem_cons.mp hlt).2 c hc) (typePart_lt ht) []).asks.appends hsub
    exact carries_cons (constantNode_carries _ docs first) (fun c _ => constantNode_carries _ [] c) hnode

theorem declarationFrom_carries (doc : Option Tree) (docs : List NodeId) :
    Carries docs (declaredCount t) (declarationFrom src sub doc t docs) := by
  unfold declarationFrom
  split <;> simp only [declaredCount, *]
  · exact propertiesFrom_carries hsub ht doc docs
  · exact constantNodes_carries hsub ht docs
  · exact classNode_carries docs t
  · exact classNode_carries docs t
  · exact classNode_carries docs t
  · exact classNode_carries docs t
  · exact functionNode_carries docs t

/-- The nodes of a declaration with documentation: the first has the node of the documentation as its first child. -/
structure Documents (src : Source) (f : Forest) (doc t : Tree) (nodes : List NodeId) : Prop where
  length_eq : nodes.length = declaredCount t
  head_child : ∀ first ∈ nodes.head?, ∃ id ∈ (f.children first).head?, f.IsNodeOf (.docComment (src.words doc)) doc.extent id

theorem declaration_documents {doc : Tree} {f g : Forest} (hg : Begins ((declaration src sub (some doc) t).run f).2 g) :
    Documents src g doc t ((declaration src sub (some doc) t).run f).1 := by
  rw [declaration_eq] at hg ⊢
  have hcarries : Carries [f.size] (declaredCount t) (declarationFrom src sub (some doc) t [f.size]) :=
    declarationFrom_carries hsub ht (some doc) [f.size]
  have hstep : Step sub n _ _ (declarationFrom src sub (some doc) t [f.size]) := declarationFrom_step ht (some doc) _
  have hdoc := (hstep.asks.appends hsub _).trans hg
  refine ⟨hcarries.length_eq _, fun first hfirst => ?_⟩
  obtain ⟨more, hmore⟩ := hcarries.docs_first _ g hg first hfirst
  refine ⟨f.size, ?_, ?_⟩
  · rw [← hmore]
    rfl
  · exact ⟨congrArg Node.kind hdoc.node_of_push, congrArg Node.span hdoc.node_of_push⟩

end Declarations

/-! ## Nodes of a statement -/

/-- The nodes of a declaration are those of its imports. -/
theorem importNodes_kinds (t : Tree) {f g : Forest} (hg : Begins ((importNodes src t).run f).2 g) :
    ((importNodes src t).run f).1.map g.kind =
      ((Import.ofText? (src.words t)).getD []).map fun i => .importDecl i.kind i.name i.short := by
  unfold importNodes at hg ⊢
  dsimp only at hg ⊢
  generalize (Import.ofText? (src.words t)).getD [] = imports at hg ⊢
  have hlist : Begins f g ∧ ((imports.mapM fun i => push (.importDecl i.kind i.name i.short) t.extent []).run f).1.map
      g.kind = imports.map fun i => .importDecl i.kind i.name i.short := by
    induction imports generalizing f with
    | nil => exact ⟨hg, rfl⟩
    | cons i rest ih =>
      rw [mapM_cons] at hg ⊢
      obtain ⟨hbegins, hkinds⟩ := ih hg
      refine ⟨(Begins.push f _).trans hbegins, congrArg₂ List.cons ?_ hkinds⟩
      exact congrArg Node.kind (Begins.node_of_push hbegins)
  exact hlist.2

theorem importNodes_bare (t : Tree) : Bare (importNodes src t) := by
  intro f g hg id hid
  have hkind := mem_map_of_mem (f := g.kind) hid
  rw [importNodes_kinds t hg] at hkind
  obtain ⟨i, -, hi⟩ := mem_map.mp hkind
  rw [← hi]
  rfl

theorem staticNode_bare (t : Tree) : Bare (staticNode src sub t) := by
  unfold staticNode
  split
  · exact bare_nil
  · exact bare_bind fun _ => bare_one t _ rfl

theorem callNode_bare (t : Tree) : Bare (callNode src sub t) := by
  unfold callNode
  split
  · split <;> exact bare_bind fun _ => bare_bind fun _ => bare_one t _ rfl
  · exact bare_bind fun _ => bare_bind fun _ => bare_one t _ rfl

theorem binaryNode_bare (t : Tree) : Bare (binaryNode src sub t) := by
  unfold binaryNode
  dsimp only
  split
  · exact bare_bind fun _ => bare_bind fun _ => bare_one t _ rfl
  · apply bare_bind
    intro children
    apply bare_one
    split <;> rfl

theorem unaryNode_bare (t : Tree) : Bare (unaryNode src sub t) := by
  unfold unaryNode
  split
  · exact bare_one t _ rfl
  · exact bare_bind fun _ => bare_one t _ rfl

theorem foreachNode_bare (t : Tree) : Bare (foreachNode sub t) :=
  bare_bind fun _ => bare_bind fun _ => bare_bind fun _ => bare_one t _ rfl

section Phrases

variable (hsub : ∀ form u, u.height < n → Appends (sub form u)) (ht : t.height ≤ n)
include hsub ht

theorem declaration_bare (doc : Option Tree) : Bare (declaration src sub doc t) := by
  rw [declaration_eq]
  exact bare_bind fun docs => (declarationFrom_carries hsub ht doc docs).bare

theorem statement?_bare {m : Build (List NodeId)} (hm : statement? src sub t = some m) : Bare m := by
  unfold statement? at hm
  split at hm
  iterate 5 · exact Option.some.inj hm ▸ bare_bind fun _ => bare_one t _ rfl
  · exact Option.some.inj hm ▸ importNodes_bare t
  · exact Option.some.inj hm ▸ foreachNode_bare t
  · exact Option.some.inj hm ▸ bare_bind fun _ => bare_one t _ rfl
  · refine Option.some.inj hm ▸ bare_each (fun c _ => staticNode_bare c) fun c hc => ?_
    exact (staticNode_step (Nat.le_of_lt (Tree.part_lt ht (mem_filter.mp hc).1))).asks.appends hsub
  · split at hm
    · exact Option.some.inj hm ▸ declaration_bare hsub ht none
    · cases hm

variable (hvalue : ∀ u, u.height < n → Bare (sub .value u))
include hvalue

theorem value_bare : Bare (value src sub t) := by
  have hfirst : Bare (maybe (sub .value) t.parts.head?) := bare_maybe fun u hu => hvalue u (Tree.first_lt ht hu)
  unfold value
  -- A value is one node, made after those of the values inside, unless it stands for another one.
  split
  iterate 3 · exact hfirst
  iterate 8 · exact bare_one t _ rfl
  iterate 3 · exact bare_bind fun _ => bare_one t _ rfl
  · exact bare_bind fun _ => bare_bind fun _ => bare_bind fun _ => bare_one t _ rfl
  iterate 2 · exact bare_bind fun _ => bare_bind fun _ => bare_one t _ rfl
  · exact callNode_bare t
  iterate 4 · exact bare_bind fun _ => bare_one t _ rfl
  · exact binaryNode_bare t
  iterate 2 · exact unaryNode_bare t
  iterate 2 · exact bare_bind fun _ => bare_one t _ rfl
  · exact bare_bind fun _ => bare_bind fun _ => bare_one t _ rfl
  · exact bare_bind fun _ => bare_bind fun _ => bare_bind fun _ => bare_bind fun _ => bare_one t _ rfl
  · exact bare_bind fun _ => bare_bind fun _ => bare_bind fun _ => bare_one t _ rfl
  iterate 3 · exact bare_bind fun _ => bare_one t _ rfl
  · exact bare_one t _ rfl
  · split
    · exact bare_nil
    · split
      · split
        · next m hm =>
          intro f g hg id hid
          exact statement?_bare hsub ht hm f g hg id (mem_of_mem_take hid)
        · exact bare_nil
      · exact bare_bind fun _ => bare_one t _ rfl

theorem phrase_bare : Bare (phrase src sub t) := by
  unfold phrase
  split
  · exact bare_nil
  · split
    · next m hm => exact statement?_bare hsub ht hm
    · exact value_bare hsub ht hvalue

end Phrases

/-- A phrase that is lowered on its own gives no documentation, as a statement or as a value. -/
theorem lower_bare (src : Source) (hform : form = .phrase ∨ form = .value) (ht : t.height ≤ n) :
    Bare (lower src n form t) := by
  induction n generalizing form t with
  | zero => exact absurd (Nat.le_zero.mp ht) (Nat.ne_of_gt t.height_pos)
  | succ n ih =>
    have hsub : ∀ form u, u.height < n + 1 → Appends (lower src n form u) :=
      fun form u hu => lower_appends src form (Nat.le_of_lt_succ hu)
    have hvalue : ∀ u, u.height < n + 1 → Bare (lower src n .value u) :=
      fun u hu => ih (.inr rfl) (Nat.le_of_lt_succ hu)
    rcases hform with rfl | rfl
    · exact phrase_bare hsub ht hvalue
    · exact value_bare hsub ht hvalue

/-! ## Lists of statements -/

/-- A declaration comes next, comments that document nothing aside. -/
def declaresNext (src : Source) : List Tree → Bool
  | [] => false
  | t :: rest => if t.kind = .comment && !isDoc src t then declaresNext src rest else t.kind.isDocumented

/-- The nodes of a list of phrases, each in its place. -/
inductive Arranged (src : Source) (f : Forest) : List Tree → List NodeId → Prop
  | nil : Arranged src f [] []
  /-- A comment that documents nothing has no node. -/
  | remark {t : Tree} {rest : List Tree} {ids : List NodeId} (hkind : t.kind = .comment) (hdoc : isDoc src t = false)
    (h : Arranged src f rest ids) : Arranged src f (t :: rest) ids
  /-- Documentation that no declaration takes is a node of its own. -/
  | inline {t : Tree} {rest : List Tree} {id : NodeId} {ids : List NodeId} (hdoc : isDoc src t = true)
    (hnext : declaresNext src rest = false) (hid : f.IsNodeOf (.docComment (src.words t)) t.extent id)
    (h : Arranged src f rest ids) : Arranged src f (t :: rest) (id :: ids)
  /-- The last documentation before a declaration is a child of the declaration. -/
  | attached {doc t : Tree} {remarks rest : List Tree} {nodes ids : List NodeId} (hdoc : isDoc src doc = true)
    (hremarks : ∀ c ∈ remarks, c.kind = .comment ∧ isDoc src c = false) (hkind : t.kind.isDocumented = true)
    (hnodes : Documents src f doc t nodes) (h : Arranged src f rest ids) :
    Arranged src f (doc :: (remarks ++ t :: rest)) (nodes ++ ids)
  /-- Any other statement, and a declaration without documentation. -/
  | statement {t : Tree} {rest : List Tree} {nodes ids : List NodeId} (hkind : t.kind ≠ .comment)
    (hopen : isOpenNamespace t = false) (h : Arranged src f rest ids) : Arranged src f (t :: rest) (nodes ++ ids)
  /-- A namespace without a block has the statements up to the next namespace. -/
  | openNamespace {t : Tree} {rest : List Tree} {id : NodeId} {ids : List NodeId} (hopen : isOpenNamespace t = true)
    (hid : f.IsNodeOf (.namespaceDecl (nameWords src t))
      (reaching t (rest.takeWhile fun s => s.kind ≠ .namespaceDefinition)) id)
    (hinside : Arranged src f (rest.takeWhile fun s => s.kind ≠ .namespaceDefinition) (f.children id))
    (hafter : Arranged src f (rest.dropWhile fun s => s.kind ≠ .namespaceDefinition) ids) :
    Arranged src f (t :: rest) (id :: ids)

theorem kind_of_isDoc (h : isDoc src t = true) : t.kind = .comment := by
  rw [isDoc, Bool.and_eq_true, decide_eq_true_eq] at h
  exact h.1

theorem kind_of_isOpenNamespace (h : isOpenNamespace t = true) : t.kind = .namespaceDefinition := by
  rw [isOpenNamespace, Bool.and_eq_true, decide_eq_true_eq] at h
  exact h.1

/-- A comment between documentation and what follows changes nothing. -/
theorem Arranged.insert_remark {f : Forest} {doc : Tree} {rest : List Tree} {ids : List NodeId} (hdoc : isDoc src doc = true)
    (hkind : t.kind = .comment) (hremark : isDoc src t = false) (h : Arranged src f (doc :: rest) ids) :
    Arranged src f (doc :: t :: rest) ids := by
  have hcomment := kind_of_isDoc hdoc
  cases h with
  | remark _ hnone _ =>
    rw [hdoc] at hnone
    cases hnone
  | inline _ hnext hid h =>
    refine .inline hdoc ?_ hid (.remark hkind hremark h)
    simpa [declaresNext, hkind, hremark] using hnext
  | @attached _ d remarks _ _ _ _ hremarks hd hnodes h =>
    have hremarks : ∀ c ∈ t :: remarks, c.kind = .comment ∧ isDoc src c = false :=
      forall_mem_cons.mpr ⟨⟨hkind, hremark⟩, hremarks⟩
    exact .attached hdoc hremarks hd hnodes h
  | statement hne _ _ => exact absurd hcomment hne
  | openNamespace hopen _ _ _ => simp [isOpenNamespace, hcomment] at hopen

/-- `m` keeps all nodes and hands out those of the phrases, which are then in their places in `g`. -/
structure Arranges (src : Source) (g : Forest) (ts : List Tree) (m : Build (List NodeId)) : Prop where
  appends : Appends m
  arranged : ∀ f, Begins (m.run f).2 g → Arranged src g ts (m.run f).1

section Rules

variable {g : Forest} {rest ts : List Tree} {pending : Option Tree} {nodes more inside after : Build (List NodeId)}

/-- Documentation that is pending is a node of its own unless a declaration comes next. -/
theorem Arranges.flush (hmore : Arranges src g ts more) (hpending : ∀ d ∈ pending, isDoc src d = true)
    (hnext : declaresNext src ts = false) :
    Arranges src g (pending.toList ++ ts) (do
      let flushed ← maybe (docNode src) pending
      return flushed ++ (← more)) := by
  cases pending with
  | none => exact hmore
  | some d =>
    refine ⟨fun f => (Begins.push f _).trans (hmore.appends _), fun f hg => ?_⟩
    have hdoc := ((hmore.appends _).trans hg).node_of_push
    refine .inline (hpending d rfl) hnext ⟨congrArg Node.kind hdoc, congrArg Node.span hdoc⟩ ?_
    exact hmore.arranged _ hg

theorem Arranges.statement (hmore : Arranges src g rest more) (hnodes : Appends nodes) (hkind : t.kind ≠ .comment)
    (hopen : isOpenNamespace t = false) :
    Arranges src g (t :: rest) (do
      let ids ← nodes
      return ids ++ (← more)) := by
  refine ⟨fun f => (hnodes f).trans (hmore.appends _), fun f hg => ?_⟩
  exact .statement hkind hopen (hmore.arranged _ hg)

theorem Arranges.openNamespace (hinside : Arranges src g (rest.takeWhile fun s => s.kind ≠ .namespaceDefinition) inside)
    (hafter : Arranges src g (rest.dropWhile fun s => s.kind ≠ .namespaceDefinition) after)
    (hopen : isOpenNamespace t = true) :
    Arranges src g (t :: rest) (do
      let children ← inside
      let id ← push (.namespaceDecl (nameWords src t))
        (reaching t (rest.takeWhile fun s => s.kind ≠ .namespaceDefinition)) children
      return id :: (← after)) := by
  refine ⟨fun f => ?_, fun f hg => ?_⟩
  · exact ((hinside.appends f).trans (.push _ _)).trans (hafter.appends _)
  · have hpush := (hafter.appends _).trans hg
    have hnode := hpush.node_of_push
    refine .openNamespace hopen ⟨congrArg Node.kind hnode, congrArg Node.span hnode⟩ ?_ (hafter.arranged _ hg)
    rw [Forest.children, hnode]
    exact hinside.arranged f ((Begins.push _ _).trans hpush)

end Rules

section Statements

variable (hsub : ∀ form u, u.height < n → Appends (sub form u))
include hsub

/-- A declaration takes the documentation that is pending. -/
theorem Arranges.declared {g : Forest} {rest : List Tree} {more : Build (List NodeId)} {pending : Option Tree}
    (hmore : Arranges src g rest more) (ht : t.height ≤ n) (hpending : ∀ d ∈ pending, isDoc src d = true)
    (hkind : t.kind.isDocumented = true) (hcomment : t.kind ≠ .comment) (hopen : isOpenNamespace t = false) :
    Arranges src g (pending.toList ++ t :: rest) (do
      let nodes ← declaration src sub pending t
      return nodes ++ (← more)) := by
  have hdeclared : Appends (declaration src sub pending t) := (declaration_step ht pending).asks.appends hsub
  cases pending with
  | none => exact hmore.statement hdeclared hcomment hopen
  | some d =>
    refine ⟨fun f => (hdeclared f).trans (hmore.appends _), fun f hg => ?_⟩
    have hnodes := declaration_documents hsub ht ((hmore.appends _).trans hg)
    exact .attached (hpending d rfl) (forall_mem_nil _) hkind hnodes (hmore.arranged _ hg)

/-- A list of statements leaves its phrases arranged, with the documentation that was pending in front of them. -/
theorem statementNodes_arranges (g : Forest) {ts : List Tree} {k : Nat} (hts : ∀ t ∈ ts, t.height < n) (hk : ts.length < k)
    {pending : Option Tree} (hpending : ∀ d ∈ pending, isDoc src d = true) :
    Arranges src g (pending.toList ++ ts) (statementNodes src sub k pending ts) := by
  induction k generalizing ts pending with
  | zero => simp at hk
  | succ k ih =>
    cases ts with
    | nil =>
      have hnil : Arranges src g [] (pure []) := ⟨fun f => .refl f, fun _ _ => .nil⟩
      rw [statementNodes]
      simpa only [pure_bind, append_nil, bind_pure] using hnil.flush hpending rfl
    | cons t rest =>
      obtain ⟨ht, hrest⟩ := forall_mem_cons.mp hts
      rw [length_cons, Nat.succ_lt_succ_iff] at hk
      have hnone : ∀ d ∈ (none : Option Tree), isDoc src d = true := by simp
      have hlist {ts : List Tree} (hts : ts.Sublist rest) : Arranges src g ts (statementNodes src sub k none ts) :=
        ih (fun u hu => hrest u (hts.subset hu)) (Nat.lt_of_le_of_lt hts.length_le hk) hnone
      by_cases hcomment : t.kind = .comment
      · cases hdoc : isDoc src t with
        | true =>
          have hnext : declaresNext src (t :: rest) = false := by simp [declaresNext, hcomment, hdoc, Kind.isDocumented]
          have hpending' : ∀ d ∈ some t, isDoc src d = true := by simpa using hdoc
          have hmore : Arranges src g (t :: rest) (statementNodes src sub k (some t) rest) := ih hrest hk hpending'
          rw [statementNodes, if_pos hcomment, if_pos hdoc]
          exact hmore.flush hpending hnext
        | false =>
          have hmore := ih hrest hk hpending
          rw [statementNodes, if_pos hcomment, if_neg (by simp [hdoc])]
          refine ⟨hmore.appends, fun f hg => ?_⟩
          cases pending with
          | none => exact .remark hcomment hdoc (hmore.arranged f hg)
          | some d => exact (hmore.arranged f hg).insert_remark (hpending d rfl) hcomment hdoc
      · cases hopen : isOpenNamespace t with
        | true =>
          have hnext : declaresNext src (t :: rest) = false := by
            simp [declaresNext, kind_of_isOpenNamespace hopen, Kind.isDocumented]
          rw [statementNodes, if_neg hcomment, if_pos hopen]
          have hnamespace := Arranges.openNamespace (hlist (takeWhile_sublist _)) (hlist (dropWhile_sublist _)) hopen
          exact hnamespace.flush hpending hnext
        | false =>
          cases hdeclared : t.kind.isDocumented with
          | true =>
            rw [statementNodes, if_neg hcomment, if_neg (by simp [hopen]), if_pos hdeclared]
            exact (hlist (.refl _)).declared hsub (Nat.le_of_lt ht) hpending hdeclared hcomment hopen
          | false =>
            have hnext : declaresNext src (t :: rest) = false := by simp [declaresNext, hcomment, hdeclared]
            rw [statementNodes, if_neg hcomment, if_neg (by simp [hopen]), if_neg (by simp [hdeclared])]
            have hstatement := (hlist (.refl _)).statement (hsub .phrase t ht) hcomment hopen
            simpa only [bind_assoc, pure_bind, append_assoc] using hstatement.flush hpending hnext

theorem statementsOf_arranges (g : Forest) (ht : t.height ≤ n) : Arranges src g t.phrases (statementsOf src sub t) := by
  have hnone : ∀ d ∈ (none : Option Tree), isDoc src d = true := by simp
  exact statementNodes_arranges hsub g (Tree.phrase_lt ht) (Nat.lt_succ_self _) hnone

/-- A node whose children are the nodes of the statements inside of a phrase. -/
theorem exists_node_of_statementsOf {kind : NodeKind} {e : Extent} {f g : Forest} (ht : t.height ≤ n)
    (hg : Begins ((statementsOf src sub t >>= push kind e).run f).2 g) :
    ∃ id, g.IsNodeOf kind e id ∧ Arranged src g t.phrases (g.children id) := by
  have hnode := hg.node_of_push
  refine ⟨_, ⟨congrArg Node.kind hnode, congrArg Node.span hnode⟩, ?_⟩
  rw [Forest.children, hnode]
  exact (statementsOf_arranges hsub g ht).arranged f ((Begins.push _ _).trans hg)

end Statements

/-! ## Programs -/

/-- A list of statements of a program, with the kind and the place of the node that holds it. -/
inductive Sequence (src : Source) (program : Tree) : NodeKind → Extent → List Tree → Prop
  | file : Sequence src program .file program.extent program.phrases
  | block {form : Form} {t : Tree} (h : Visited src program form t) (hform : form = .phrase ∨ form = .value)
    (hkind : t.kind = .compoundStatement) : Sequence src program .block t.extent t.phrases
  | namespaceBody {t body : Tree} (h : Visited src program .phrase t) (hkind : t.kind = .namespaceDefinition)
    (hbody : body ∈ t.part? .body) : Sequence src program (.namespaceDecl (nameWords src t)) t.extent body.phrases

section

variable (hform : form = .phrase ∨ form = .value)
include hform

/-- A statement that can stand for a value leaves the same nodes in either place. -/
theorem run_statement {m : Build (List NodeId)}
    (hkind : t.kind = .compoundStatement ∨ ∃ rule, t.kind = .controlFlow rule)
    (hstatement : statement? src (lower src n) t = some m) (f : Forest) :
    ((lower src (n + 1) form t).run f).2 = (m.run f).2 := by
  rcases hkind with hkind | ⟨rule, hkind⟩ <;> rcases hform with rfl | rfl
  · simp only [lower, phrase, hstatement, hkind, Kind.isSkipped, Bool.false_eq_true, if_false]
  · simp only [lower, value, hstatement, hkind, Kind.isSkipped, isStatementValue, Bool.false_eq_true, if_false, if_true]
    rfl
  · simp only [lower, phrase, hstatement, hkind, Kind.isSkipped, Bool.false_eq_true, if_false]
  · simp only [lower, value, hstatement, hkind, Kind.isSkipped, isStatementValue, Bool.false_eq_true, if_false, if_true]
    rfl

theorem run_block (hkind : t.kind = .compoundStatement) (f : Forest) : ((lower src (n + 1) form t).run f).2 =
      ((statementsOf src (lower src n) t >>= push .block t.extent).run f).2 := by
  have hstatement : statement? src (lower src n) t = some (do one .block t (← statementsOf src (lower src n) t)) := by
    simp only [statement?, hkind]
  exact run_statement hform (.inl hkind) hstatement f

theorem run_controlFlow {rule : String}
    (hkind : t.kind = .controlFlow rule) (f : Forest) : ((lower src (n + 1) form t).run f).2 =
      ((flat (lower src n) t >>= push (.controlFlow rule) t.extent).run f).2 := by
  have hstatement : statement? src (lower src n) t = some (do one (.controlFlow rule) t (← flat (lower src n) t)) := by
    simp only [statement?, hkind]
  exact run_statement hform (.inr ⟨rule, hkind⟩) hstatement f

end

theorem run_namespace {body : Tree} (hkind : t.kind = .namespaceDefinition) (hbody : t.part? .body = some body)
    (f : Forest) : ((lower src (n + 1) .phrase t).run f).2 =
      ((statementsOf src (lower src n) body >>= push (.namespaceDecl (nameWords src t)) t.extent).run f).2 := by
  simp only [lower, phrase, statement?, hkind, Kind.isSkipped, Bool.false_eq_true, if_false, namespaceNode, hbody]
  rfl

end Lowering

namespace Forest

open Lowering

theorem begins_ofTree (path : String) (src : Source) (program : Tree) :
    Begins ((programNode src program).run {}).2 (ofTree path src program) :=
  ⟨Nat.le_refl _, fun _ _ => rfl⟩

/-- In every file, namespace and block the phrases have their nodes in their places. -/
theorem arranged_of_sequence {path : String} {src : Source} {program : Tree} {kind : NodeKind} {e : Extent}
    {phrases : List Tree} (h : Sequence src program kind e phrases) :
    ∃ id, (ofTree path src program).IsNodeOf kind e id ∧
      Arranged src (ofTree path src program) phrases ((ofTree path src program).children id) := by
  have hstep {n : Nat} : ∀ form u, u.height < n + 1 → Appends (lower src n form u) :=
    fun form u hu => lower_appends src form (Nat.le_of_lt_succ hu)
  have hprogram := begins_ofTree path src program
  cases h with
  | file =>
    have hlevels : ∀ form u, u.height < program.height → Appends (lower src program.height form u) :=
      fun form u hu => lower_appends src form (Nat.le_of_lt hu)
    exact exists_node_of_statementsOf hlevels (Nat.le_refl _) hprogram
  | @block form t h hform hkind =>
    obtain ⟨n, f, ht, hf⟩ := h.reached
    rw [run_block hform hkind] at hf
    exact exists_node_of_statementsOf hstep ht (hf.trans hprogram)
  | @namespaceBody t body h hkind hbody =>
    obtain ⟨n, f, ht, hf⟩ := h.reached
    rw [run_namespace hkind hbody] at hf
    exact exists_node_of_statementsOf hstep (Nat.le_of_lt (Tree.role_lt ht hbody)) (hf.trans hprogram)

/-- The parts of a statement that steers control have no documentation among their nodes. -/
theorem bare_of_controlFlow {path : String} {src : Source} {program t : Tree} {form : Form} {rule : String}
    (h : Visited src program form t) (hform : form = .phrase ∨ form = .value) (hkind : t.kind = .controlFlow rule) :
    ∃ id, (ofTree path src program).IsNodeOf (.controlFlow rule) t.extent id ∧
      ∀ c ∈ (ofTree path src program).children id, isDocumentation ((ofTree path src program).kind c) = false := by
  obtain ⟨n, f, ht, hf⟩ := h.reached
  rw [run_controlFlow hform hkind] at hf
  have hg := hf.trans (begins_ofTree path src program)
  have hparts : ∀ u ∈ t.parts, u.height ≤ n := fun u hu => Nat.le_of_lt_succ (Tree.part_lt ht hu)
  have hbare : Bare (flat (lower src n) t) :=
    bare_each (fun u hu => lower_bare src (.inl rfl) (hparts u hu)) fun u hu => lower_appends src .phrase (hparts u hu)
  have hnode := hg.node_of_push
  refine ⟨_, ⟨congrArg Node.kind hnode, congrArg Node.span hnode⟩, ?_⟩
  rw [Forest.children, hnode]
  exact hbare f _ ((Begins.push _ _).trans hg)

/-- Where the documentation of a program goes. In every file, namespace and block it has its place: before a declaration
it is the first child of the declaration, and elsewhere a child of its own among the nodes of the statements. Among the
children of a statement that steers control, such as a case of a switch or what follows a colon, there is none. -/
theorem documentation_places (path : String) (src : Source) (program : Tree) :
    (∀ kind e phrases, Sequence src program kind e phrases →
      ∃ id, (ofTree path src program).IsNodeOf kind e id ∧
        Arranged src (ofTree path src program) phrases ((ofTree path src program).children id)) ∧
    (∀ form t rule, Visited src program form t → form = .phrase ∨ form = .value → t.kind = .controlFlow rule →
      ∃ id, (ofTree path src program).IsNodeOf (.controlFlow rule) t.extent id ∧
        ∀ c ∈ (ofTree path src program).children id, isDocumentation ((ofTree path src program).kind c) = false) :=
  ⟨fun _ _ _ h => arranged_of_sequence h, fun _ _ _ h hform hkind => bare_of_controlFlow h hform hkind⟩

/-- A function whose body has documentation between its statements and after them. -/
def annotated : Source :=
  "<?php function f() \x7b g(); /** @var A $x */ $x = g(); /** the end */ \x7d".toUTF8

theorem annotated_sequence :
    ∃ program e phrases, Tree.ofSource annotated = some program ∧ Sequence annotated program .block e phrases ∧
      phrases.map (isDoc annotated) = [false, true, false, true] := by
  have htree : ((Tree.ofSource annotated).any fun program => program.phrases.any fun t =>
      t.kind = .functionDefinition && (t.part? .body).any fun body =>
        body.kind = .compoundStatement && body.phrases.map (isDoc annotated) == [false, true, false, true]) = true := by
    decide +kernel
  simp only [Option.any_eq_true, any_eq_true, Bool.and_eq_true, decide_eq_true_eq, beq_iff_eq] at htree
  obtain ⟨program, hprogram, t, ht, hkind, body, hbody, hblock, hdocs⟩ := htree
  have hasked : (Form.phrase, body) ∈ sequenceRequests annotated program.phrases := by
    refine mem_flatMap.mpr ⟨t, ht, ?_⟩
    simp [itemRequests, isOpenNamespace, declarationRequests, functionRequests, allAs, hkind, hbody,
      Kind.isDocumented]
  exact ⟨program, _, _, hprogram, .block (.top hasked) (.inl rfl) hblock, hdocs⟩

/-- A switch with documentation before a statement of a case. -/
def annotatedCase : Source :=
  "<?php switch ($x) \x7b case 1: /** @var Foo $y */ $y = make(); \x7d".toUTF8

/-- The phrases inside of a statement that steers control are asked for one by one. -/
theorem visited_of_controlFlow {src : Source} {program t u : Tree} {rule : String}
    (ht : Visited src program .phrase t) (hkind : t.kind = .controlFlow rule) (hu : u ∈ t.parts) :
    Visited src program .phrase u := by
  refine .inside ht ?_
  simpa [requests, phraseRequests, statementRequests?, allAs, hkind, Kind.isSkipped] using hu

theorem annotatedCase_visited :
    ∃ program case doc, Tree.ofSource annotatedCase = some program ∧ Visited annotatedCase program .phrase case ∧
      case.kind = .controlFlow "case_statement" ∧ doc ∈ case.phrases ∧ isDoc annotatedCase doc = true := by
  have htree : ((Tree.ofSource annotatedCase).any fun program => program.phrases.any fun t =>
      t.kind = .controlFlow "switch_statement" && t.parts.any fun block =>
        block.kind = .controlFlow "switch_block" && block.parts.any fun case =>
          case.kind = .controlFlow "case_statement" && case.phrases.any (isDoc annotatedCase)) = true := by
    decide +kernel
  simp only [Option.any_eq_true, any_eq_true, Bool.and_eq_true, decide_eq_true_eq] at htree
  obtain ⟨program, hprogram, t, ht, hkind, block, hblock, hblockKind, case, hcase, hcaseKind, doc, hdoc, hisDoc⟩ := htree
  have hasked : (Form.phrase, t) ∈ sequenceRequests annotatedCase program.phrases := by
    refine mem_flatMap.mpr ⟨t, ht, ?_⟩
    simp [itemRequests, isOpenNamespace, hkind, Kind.isDocumented]
  have hvisited := visited_of_controlFlow (visited_of_controlFlow (.top hasked) hkind hblock) hblockKind hcase
  exact ⟨program, case, doc, hprogram, hvisited, hcaseKind, hdoc, hisDoc⟩

theorem documentation_places_annotated :
    (∃ program e phrases, Tree.ofSource annotated = some program ∧
      phrases.map (isDoc annotated) = [false, true, false, true] ∧
      ∃ id, (ofTree "a.php" annotated program).IsNodeOf .block e id ∧
        Arranged annotated (ofTree "a.php" annotated program) phrases ((ofTree "a.php" annotated program).children id)) ∧
    (∃ program case doc : Tree, Tree.ofSource annotatedCase = some program ∧ doc ∈ case.phrases ∧
      isDoc annotatedCase doc = true ∧
      ∃ id, (ofTree "a.php" annotatedCase program).IsNodeOf (.controlFlow "case_statement") case.extent id ∧
        ∀ c ∈ (ofTree "a.php" annotatedCase program).children id,
          isDocumentation ((ofTree "a.php" annotatedCase program).kind c) = false) := by
  constructor
  · obtain ⟨program, e, phrases, hprogram, hsequence, hdocs⟩ := annotated_sequence
    exact ⟨program, e, phrases, hprogram, hdocs, (documentation_places "a.php" annotated program).1 _ e phrases hsequence⟩
  · obtain ⟨program, case, doc, hprogram, hvisited, hkind, hdoc, hisDoc⟩ := annotatedCase_visited
    have hnode := (documentation_places "a.php" annotatedCase program).2 _ case _ hvisited (.inl rfl) hkind
    exact ⟨program, case, doc, hprogram, hdoc, hisDoc, hnode⟩

/-- A case of a switch is lowered, and the documentation in it leaves no node at all. -/
theorem case_loses_documentation :
    ∃ program case doc, Tree.ofSource annotatedCase = some program ∧ Visited annotatedCase program .phrase case ∧
      case.kind = .controlFlow "case_statement" ∧ doc ∈ case.phrases ∧ isDoc annotatedCase doc = true ∧
      ∀ id ∈ (ofTree "a.php" annotatedCase program).ids,
        isDocumentation ((ofTree "a.php" annotatedCase program).kind id) = false := by
  have hnodes : ((Tree.ofSource annotatedCase).all fun program => (ofTree "a.php" annotatedCase program).ids.all fun id =>
      !isDocumentation ((ofTree "a.php" annotatedCase program).kind id)) = true := by
    decide +kernel
  obtain ⟨program, case, doc, hprogram, hvisited, hkind, hdoc, hisDoc⟩ := annotatedCase_visited
  refine ⟨program, case, doc, hprogram, hvisited, hkind, hdoc, hisDoc, fun id hid => ?_⟩
  rw [hprogram, Option.all_some, List.all_eq_true] at hnodes
  simpa using hnodes id hid

end Forest

end EventAtlas
