import EventAtlas.Proofs.Inference.SweepQuestions
import EventAtlas.Proofs.Inference.Writes

/-!
# When no cycle is reported

A node is refused with a cycle if it is asked for, without a look at the stack, while it is on the stack. Only operands
are asked for in this way, and an operand is a child of the node that asks. So the stack is made of runs: each run
begins with the node for which the resolution began or with a guarded node, and goes on from a node to one of its
operands (`Chained`). If each node is a child of one node only, the operand that closes a cycle must be the beginning of
a run. That is impossible if no guarded node contains another one, nor the first node
(`Index.Separate`).
-/

namespace EventAtlas

open List Strategy

/-- The dialogue has ended. -/
def Dialogue.isDone {Q : Type} [Questions Q] {α : Type} : Dialogue Q α → Bool
  | done _ => true
  | ask .. => false

/-- An access to a constant of a class. -/
def NodeKind.isConstantFetch : NodeKind → Bool
  | classConstantFetch _ => true
  | _ => false

namespace Forest

/-- A node is an operand of another, or of an operand of it, and so on. -/
inductive Contains (f : Forest) : NodeId → NodeId → Prop
  | operand {p c : NodeId} : c ∈ f.operands p → f.Contains p c
  | step {e p c : NodeId} : f.Contains e p → c ∈ f.operands p → f.Contains e c

theorem mem_children_of_typeHint? {f : Forest} {p c : NodeId} (h : f.typeHint? p = some c) : c ∈ f.children p :=
  mem_of_find?_eq_some h

theorem mem_children_of_defaultValue? {f : Forest} {p c : NodeId} (h : f.defaultValue? p = some c) : c ∈ f.children p :=
  mem_of_find?_eq_some h

/-- Operands are children, apart from caught classes and class constants. -/
theorem mem_children_of_mem_operands {f : Forest} {p c : NodeId} (h : c ∈ f.operands p) :
    c ∈ f.children p ∨ (f.kind c).isName = true ∨ (f.kind p).isConstantFetch = true := by
  have hhead : c ∈ (f.children p).head?.toList → c ∈ f.children p := fun h =>
    mem_of_mem_head? (Option.mem_toList.mp h)
  have hsecond : c ∈ ((f.children p).drop 1).head?.toList → c ∈ f.children p := fun h =>
    mem_of_mem_drop (mem_of_mem_head? (Option.mem_toList.mp h))
  have hdeclared : c ∈ (f.typeHint? p).toList ++ (f.defaultValue? p).toList → c ∈ f.children p := by
    intro h
    obtain h | h := mem_append.mp h
    · exact mem_children_of_typeHint? (Option.mem_toList.mp h)
    · exact mem_children_of_defaultValue? (Option.mem_toList.mp h)
  unfold operands at h
  dsimp only at h
  cases hk : f.kind p with
  | classConstantFetch name => exact .inr (.inr rfl)
  | var name =>
    rw [hk] at h
    obtain ⟨clause, -, hc⟩ := mem_flatMap.mp h
    unfold caughtNames at hc
    split at hc
    · exact .inr (.inl (mem_filter.mp hc).2)
    · cases hc
  | method | function => rw [hk] at h; exact .inl (mem_children_of_typeHint? (Option.mem_toList.mp h))
  | property | parameter => rw [hk] at h; exact .inl (hdeclared h)
  | classConstant name =>
    rw [hk] at h
    obtain hd | ⟨-, ht⟩ := Option.or_eq_some_iff.mp (Option.mem_toList.mp h)
    · exact .inl (mem_children_of_defaultValue? hd)
    · exact .inl (mem_children_of_typeHint? ht)
  | nullableType | unionType | intersectionType => rw [hk] at h; exact .inl h
  | assign byRef => rw [hk] at h; exact .inl (hsecond h)
  | compoundAssign op =>
    simp only [hk] at h
    split at h
    · cases h
    · exact .inl (hsecond h)
  | new | staticVariable | methodCall | staticCall | argument | clone | arrayAccess => rw [hk] at h; exact .inl (hhead h)
  | propertyFetch | staticPropertyFetch | unary =>
    simp only [hk] at h
    split at h
    · cases h
    · exact .inl (hhead h)
  | ternary short =>
    simp only [hk] at h
    split at h
    · exact .inl h
    · exact .inl (mem_of_mem_drop h)
  | coalesce => rw [hk] at h; exact .inl (mem_of_mem_take h)
  | binary op =>
    simp only [hk] at h
    split at h
    · exact .inl (mem_of_mem_take h)
    · cases h
  | matchExpr => rw [hk] at h; exact .inl (mem_filter.mp h).1
  | matchArm isDefault => rw [hk] at h; exact .inl (mem_of_mem_getLast? (Option.mem_toList.mp h))
  | _ => simp [hk] at h

end Forest

/-- A node that can be refused with a cycle: it asks for something, and it does not add nothing where it depends on
itself. -/
def Index.mayCycle (x : Index) (node : NodeId) : Bool :=
  !(dispatch x node).isDone && !Inquiry.addsNothing (x.forest.kind node)

/-- The guarded nodes and `node` are apart from each other: none of them that can be refused is contained in a guarded
node, and `node` does not contain itself. Besides, every node is a child of one node at most, and no node asks for class
constants. -/
structure Index.Separate (x : Index) (node : NodeId) : Prop where
  no_constants : ∀ n, (x.forest.kind n).isConstantFetch = false
  one_parent : ∀ p q c, c ∈ x.forest.children p → c ∈ x.forest.children q → p = q
  apart : ∀ e n, x.forest.Guarded e → x.forest.Guarded n ∨ n = node → x.mayCycle n = true → ¬ x.forest.Contains e n
  irreflexive : ¬ x.forest.Contains node node

/-! ## A test for separation -/

namespace Forest

/-- The nodes that are guarded. -/
def guardedNodes (f : Forest) : List NodeId :=
  f.ids.filter (fun n => isGuardedKind (f.kind n)) ++ f.ids.flatMap f.guardedChildren

/-- The nodes that a node contains, as far as a search of bounded depth finds them. -/
def contents (f : Forest) (e : NodeId) : List NodeId :=
  (f.operands e).foldl (reach f.operands (f.size + 1)) []

/-- The search for what a node contains was complete: the operands of what was found were found. -/
def contentsClosed (f : Forest) (e : NodeId) : Bool :=
  (e :: f.contents e).all fun n => (f.operands n).all (f.contents e).contains

variable {f : Forest}

theorem Guarded.mem_guardedNodes {n : NodeId} (h : f.Guarded n) : n ∈ f.guardedNodes := by
  obtain hk | ⟨p, hp⟩ := h
  · refine mem_append_left _ (mem_filter.mpr ⟨mem_range.mpr (lt_size_of_kind ?_), hk⟩)
    intro hother
    rw [hother] at hk
    cases hk
  · refine mem_append_right _ (mem_flatMap.mpr ⟨p, mem_range.mpr (lt_size_of_kind ?_), hp⟩)
    intro hother
    simp [guardedChildren, hother] at hp

theorem Contains.mem_contents {e n : NodeId} (h : f.Contains e n) (hclosed : f.contentsClosed e = true) :
    n ∈ f.contents e := by
  have hstep : ∀ p ∈ e :: f.contents e, ∀ c ∈ f.operands p, c ∈ f.contents e := by
    intro p hp c hc
    have hall := all_eq_true.mp hclosed p hp
    exact contains_iff_mem.mp (all_eq_true.mp hall c hc)
  induction h with
  | operand hc => exact hstep _ mem_cons_self _ hc
  | step _ hc ih => exact hstep _ (mem_cons_of_mem _ ih) _ hc

end Forest

namespace Index

/-- A test for `Separate`. -/
def separates (x : Index) (node : NodeId) : Bool :=
  let f := x.forest
  let begins := node :: f.guardedNodes
  f.ids.all (fun n => !(f.kind n).isConstantFetch)
    && f.ids.all (fun p => (f.children p).all fun c => f.ids.all fun q => q == p || !(f.children q).contains c)
    && begins.all f.contentsClosed
    && f.guardedNodes.all (fun e => (f.contents e).all fun n => !begins.contains n || !x.mayCycle n)
    && !(f.contents node).contains node

theorem separate_of_separates {x : Index} {node : NodeId} (h : x.separates node = true) : x.Separate node := by
  simp only [separates, Bool.and_eq_true, all_eq_true, Bool.or_eq_true, Bool.not_eq_true'] at h
  obtain ⟨⟨⟨⟨hconstants, hparents⟩, hclosed⟩, hapart⟩, hself⟩ := h
  have hids : ∀ {p c}, c ∈ x.forest.children p → p ∈ x.forest.ids := by
    intro p c hc
    refine mem_range.mpr (Nat.lt_of_not_le fun hle => ?_)
    have hnot : ¬ p < x.forest.nodes.size := Nat.not_lt.mpr hle
    simp [Forest.children, Forest.node, Array.getD, hnot] at hc
  refine ⟨fun n => ?_, fun p q c hp hq => ?_, fun e n he hn hmay hcontains => ?_, fun hcontains => ?_⟩
  · by_cases hn : n < x.forest.size
    · exact hconstants n (mem_range.mpr hn)
    · have hother : x.forest.kind n = .other "" := by
        refine Decidable.byContradiction fun hk => hn (lt_size_of_kind hk)
      rw [hother]
      rfl
  · obtain heq | hnot := hparents p (hids hp) c hp q (hids hq)
    · exact (beq_iff_eq.mp heq).symm
    · rw [contains_iff_mem.mpr hq] at hnot
      cases hnot
  · have hmem := hcontains.mem_contents (hclosed e (mem_cons_of_mem _ he.mem_guardedNodes))
    have hbegins : n ∈ node :: x.forest.guardedNodes := by
      obtain hg | rfl := hn
      · exact mem_cons_of_mem _ hg.mem_guardedNodes
      · exact mem_cons_self
    obtain hnot | hnot := hapart e he.mem_guardedNodes n hmem
    · rw [contains_iff_mem.mpr hbegins] at hnot
      cases hnot
    · rw [hmay] at hnot
      cases hnot
  · have hmem := hcontains.mem_contents (hclosed node mem_cons_self)
    rw [contains_iff_mem.mpr hmem] at hself
    cases hself

end Index

/-- A name asks for nothing. -/
theorem Strategy.dispatch_isDone_of_isName {x : Index} {n : NodeId} (h : (x.forest.kind n).isName = true) :
    (dispatch x n).isDone = true := by
  unfold NodeKind.isName at h
  split at h
  · next hk => simp [dispatch, hk, Dialogue.isDone]
  · cases h

/-! ## The stack -/

/-- A stack on which every node, after the first, is an operand of the node below it or guarded. All nodes but the
innermost ask for something. -/
inductive Chained (x : Index) (first : NodeId) : List NodeId → Prop
  | start : Chained x first [first]
  | operand {c p : NodeId} {rest : List NodeId} : c ∈ x.forest.operands p →
    (dispatch x p).isDone = false → Chained x first (p :: rest) → Chained x first (c :: p :: rest)
  | guarded {c p : NodeId} {rest : List NodeId} : x.forest.Guarded c →
    (dispatch x p).isDone = false → Chained x first (p :: rest) → Chained x first (c :: p :: rest)

namespace Chained

variable {x : Index} {first n p : NodeId} {rest : List NodeId}

variable (h : Chained x first (p :: rest))
include h

theorem tail_asks : ∀ n ∈ rest, (dispatch x n).isDone = false := by
  generalize hl : p :: rest = l at h
  induction h generalizing p rest with
  | start =>
    cases hl
    exact nofun
  | operand _ hp _ ih =>
    cases hl
    exact forall_mem_cons.mpr ⟨hp, ih rfl⟩
  | guarded _ hp _ ih =>
    cases hl
    exact forall_mem_cons.mpr ⟨hp, ih rfl⟩

/-- A node of the stack is an operand of the node below it, or it begins a run. The innermost node belongs to a run that
begins there or with a guarded node. -/
theorem origin (hn : n ∈ p :: rest) :
    (∃ q above below, p :: rest = above ++ n :: q :: below ∧ n ∈ x.forest.operands q) ∨
      ((x.forest.Guarded n ∨ n = first) ∧
        ∃ e, (e = n ∨ x.forest.Guarded e) ∧ (e = p ∨ x.forest.Contains e p)) := by
  generalize hl : p :: rest = l at h hn
  induction h generalizing p rest with
  | start =>
    cases hl
    obtain rfl := mem_singleton.mp hn
    exact .inr ⟨.inr rfl, n, .inl rfl, .inl rfl⟩
  | @operand c q below hc _ _ ih =>
    cases hl
    obtain rfl | hn := mem_cons.mp hn
    · exact .inl ⟨q, [], below, rfl, hc⟩
    · obtain ⟨r, above, below', heq, hr⟩ | ⟨hbegin, e, he, hreach⟩ := ih rfl hn
      · exact .inl ⟨r, c :: above, below', by rw [heq]; rfl, hr⟩
      · refine .inr ⟨hbegin, e, he, .inr ?_⟩
        obtain rfl | hreach := hreach
        · exact .operand hc
        · exact .step hreach hc
  | @guarded c q below hc _ _ ih =>
    cases hl
    obtain rfl | hn := mem_cons.mp hn
    · exact .inr ⟨.inl hc, n, .inl rfl, .inl rfl⟩
    · obtain ⟨r, above, below', heq, hr⟩ | ⟨hbegin, -⟩ := ih rfl hn
      · exact .inl ⟨r, c :: above, below', by rw [heq]; rfl, hr⟩
      · exact .inr ⟨hbegin, c, .inr hc, .inl rfl⟩

/-- An operand of the innermost node is not on the stack, unless it adds nothing there. -/
theorem operand_not_mem (hsep : x.Separate first) (hnodup : (p :: rest).Nodup)
    (hasks : (dispatch x p).isDone = false) (hn : n ∈ x.forest.operands p)
    (hadds : Inquiry.addsNothing (x.forest.kind n) = false) : n ∉ p :: rest := by
  intro hmem
  have hall : ∀ m ∈ p :: rest, (dispatch x m).isDone = false :=
    forall_mem_cons.mpr ⟨hasks, h.tail_asks⟩
  have hnasks := hall n hmem
  have hmay : x.mayCycle n = true := by simp [Index.mayCycle, hnasks, hadds]
  have hchild : ∀ {q}, n ∈ x.forest.operands q → n ∈ x.forest.children q := by
    intro q hq
    obtain hc | hname | hconstant := Forest.mem_children_of_mem_operands hq
    · exact hc
    · rw [dispatch_isDone_of_isName hname] at hnasks
      cases hnasks
    · rw [hsep.no_constants q] at hconstant
      cases hconstant
  obtain ⟨q, above, below, heq, hq⟩ | ⟨hbegin, e, he, hreach⟩ := h.origin hmem
  · -- The node below would be the innermost one.
    have hqp : q = p := hsep.one_parent q p n (hchild hq) (hchild hn)
    subst hqp
    cases above with
    | nil =>
      cases heq
      exact (nodup_cons.mp hnodup).1 mem_cons_self
    | cons a above =>
      cases heq
      exact (nodup_cons.mp hnodup).1 (by simp)
  · have hcontains : x.forest.Contains e n := by
      obtain rfl | hreach := hreach
      · exact .operand hn
      · exact .step hreach hn
    obtain rfl | he := he
    · obtain hguarded | rfl := hbegin
      · exact hsep.apart e e hguarded (.inl hguarded) hmay hcontains
      · exact hsep.irreflexive hcontains
    · exact hsep.apart e n he hbegin hmay hcontains

end Chained

/-! ## Inquiries -/

/-- The inquiry did not end with a cycle. -/
def ResolveError.NoCycle {α : Type} (r : Except ResolveError α) : Prop :=
  ∀ chain, r ≠ .error (.circular chain)

/-- The session has this stack, and the writes it has collected are guarded. -/
structure Session.Stacked (f : Forest) (stack : List NodeId) (s : Session) : Prop where
  stack_eq : s.stack = stack
  resolving_eq : s.resolving = stack
  writesGuarded : s.WritesGuarded f

/-- An act that neither enters nor leaves a node; what it collects is from this forest. -/
def Act.Within (f : Forest) : Act → Prop
  | .enter _ | .leave .. => False
  | .collect g _ => g = f
  | _ => True

namespace Session

variable {f : Forest} {stack : List NodeId} {s s' : Session}

theorem Stacked.push {node : NodeId} (h : Stacked f stack s) (hnode : node ∉ stack) :
    Stacked f (node :: stack) (s.push node) := by
  obtain ⟨rfl, hresolving, hwrites⟩ := h
  refine ⟨rfl, ?_, ⟨hwrites.injected, hwrites.dynamic⟩⟩
  change s.resolving.insert node = node :: s.stack
  rw [hresolving, insert_of_not_mem hnode]

theorem Stacked.leave {node : NodeId} (h : Stacked f (node :: stack) s) (types : Option TypeSet) :
    Stacked f stack (s.leave node types) := by
  obtain ⟨hstack, hresolving, hwrites⟩ := h
  rw [leave_eq]
  refine ⟨?_, ?_, ⟨hwrites.injected, hwrites.dynamic⟩⟩
  · change s.stack.drop 1 = stack
    rw [hstack, drop_one, tail_cons]
  · change s.resolving.erase node = stack
    rw [hresolving, erase_cons_head]

/-- Acts within a frame do not change the stack, and collecting the writes of a class-like keeps them guarded. -/
theorem Stacked.perform (h : Stacked f stack s) (a : Act) (ha : a.Within f) : Stacked f stack (a.perform s).2 := by
  have hmakes := a.perform_makes s
  generalize (a.perform s).2 = t at hmakes ⊢
  cases hmakes with
  | enter => cases ha
  | leave => cases ha
  | collect g c _ _ _ heq =>
    obtain rfl : g = f := ha
    exact ⟨h.stack_eq, h.resolving_eq, heq ▸ h.writesGuarded.collect c⟩
  | _ => exact ⟨h.stack_eq, h.resolving_eq, ⟨h.writesGuarded.injected, h.writesGuarded.dynamic⟩⟩

end Session

namespace Inquiry

open Session ResolveError

/-- The inquiry keeps the stack and does not end with a cycle. -/
def Untangled {α : Type} (f : Forest) (stack : List NodeId) (i : Inquiry α) : Prop :=
  ∀ s, Stacked f stack s → i.run.Meets (fun _ _ => True) (fun r s => Stacked f stack s ∧ NoCycle r) s

section Answers

variable {α : Type} {x : Index} {stack : List NodeId} {types : NodeId → Inquiry TypeSet}

theorem untangled_act (a : Act) (ha : a.Within x.forest) : Untangled x.forest stack (act a) :=
  fun _ hs => ⟨trivial, hs.perform a ha, nofun⟩

theorem Untangled.bind {β : Type} {i : Inquiry α} {g : α → Inquiry β} (hi : Untangled x.forest stack i)
    (hg : ∀ a, Untangled x.forest stack (g a)) : Untangled x.forest stack (i >>= g) := by
  intro s hs
  rw [Dialogue.Meets, watched_bind]
  refine (hi s hs).mono fun r s _ h => ?_
  cases r with
  | ok a => exact hg a s h.1
  | error e =>
    refine ⟨h.1, fun chain he => h.2 chain ?_⟩
    cases he
    rfl

/-- A look at the stack says whether a node is there. -/
theorem untangled_isResolving {n : NodeId} {g : Bool → Inquiry α} (htrue : Untangled x.forest stack (g true))
    (hfalse : n ∉ stack → Untangled x.forest stack (g false)) :
    Untangled x.forest stack (act (.isResolving n) >>= g) := by
  intro s hs
  rw [Dialogue.Meets, watched_act]
  refine ⟨trivial, ?_⟩
  by_cases hn : n ∈ stack
  · have hcontains : (Act.isResolving n).perform s = (true, s) := by simp [Act.perform, hs.resolving_eq, hn]
    rw [hcontains]
    exact htrue s hs
  · have hcontains : (Act.isResolving n).perform s = (false, s) := by simp [Act.perform, hs.resolving_eq, hn]
    rw [hcontains]
    exact hfalse hn s hs

variable (hguarded : ∀ n, n ∉ stack → x.forest.Guarded n → Untangled x.forest stack (types n))

include hguarded

theorem sweeping_untangled {post : α → Prop} {absent : List NodeId} {d : Sweeping α}
    (hd : d.Asks x.forest post absent) (habsent : ∀ n ∈ absent, n ∉ stack) :
    Untangled x.forest stack (d.interpret (answerSweep types)) := by
  induction d generalizing absent with
  | done a => exact fun s hs => ⟨hs, nofun⟩
  | ask q next ih =>
    cases q with
    | types n =>
      exact (hguarded n (habsent n hd.1.2) hd.1.1).bind fun t => ih t (hd.2 t) habsent
    | isResolving n =>
      exact untangled_isResolving (ih true hd.1 habsent) fun hn =>
        ih false hd.2 (forall_mem_cons.mpr ⟨hn, habsent⟩)
    | current => exact (untangled_act .current trivial).bind fun v => ih v (hd v) habsent
    | change g => exact (untangled_act (.changeVariables g) trivial).bind fun _ => ih () hd habsent
    | read n name => exact (untangled_act (.rememberRead n name) trivial).bind fun _ => ih () hd habsent

theorem sweep_untangled (scope : NodeId) : Untangled x.forest stack (sweep x types scope) := by
  intro s hs
  have hbegun := hs.perform (.beginSweep scope) trivial
  refine sweep_watched trivial (fun _ => ⟨hbegun, nofun⟩) fun _ => ?_
  refine (sweeping_untangled hguarded (Sweeping.scope_asks scope) nofun _ hbegun).mono ?_
  exact fun r s _ h => ⟨trivial, h.1.perform (.endSweep scope r.isOk) trivial, h.2⟩

theorem readVariable_untangled (node scope : NodeId) (name : String) :
    Untangled x.forest stack (readVariable x types node scope name) := by
  refine (untangled_act (.readAhead scope name) trivial).bind fun found => ?_
  cases found with
  | some found => exact fun s hs => ⟨hs, nofun⟩
  | none => exact (sweep_untangled hguarded scope).bind fun _ => untangled_act (.readBehind node scope) trivial

/-- A strategy that asks as it should, with its operands not on the stack, meets no cycle. -/
theorem strategy_untangled {node : NodeId} {absent collected : List NodeId} {d : Strategy α}
    (hoperands : ∀ n ∈ x.forest.operands node, Untangled x.forest stack (types n))
    (hd : d.Asks x.forest node absent collected) (habsent : ∀ n ∈ absent, n ∉ stack) :
    Untangled x.forest stack (d.interpret (answer x types)) := by
  induction d generalizing absent collected with
  | done a => exact fun s hs => ⟨hs, nofun⟩
  | ask q next ih =>
    cases q with
    | types n =>
      have hn : Untangled x.forest stack (types n) := by
        obtain hop | ⟨hg, ha⟩ := hd.1
        · exact hoperands n hop
        · exact hguarded n (habsent n ha) hg
      exact hn.bind fun t => ih t (hd.2 t) habsent
    | isResolving n =>
      exact untangled_isResolving (ih true hd.1 habsent) fun hn =>
        ih false hd.2 (forall_mem_cons.mpr ⟨hn, habsent⟩)
    | read n scope name =>
      exact (readVariable_untangled hguarded n scope name).bind fun t => ih t (hd.2 t) habsent
    | collect c => exact (untangled_act (.collect x.forest c) rfl).bind fun _ => ih () hd habsent
    | writesTo decl =>
      intro s hs
      exact ⟨trivial, ih _ (hd.2 _ (hs.writesGuarded.writesTo decl)) habsent s hs⟩
    | looseWrites owner name =>
      intro s hs
      exact ⟨trivial, ih _ (hd.2 _ (hs.writesGuarded.looseWrites owner name)) habsent s hs⟩

end Answers

/-- A node on the stack that adds nothing there is not refused. -/
theorem untangled_of_mem {x : Index} {limit room : Nat} {node : NodeId} {stack : List NodeId} (hnode : node ∈ stack)
    (hadds : addsNothing (x.forest.kind node) = true) : Untangled x.forest stack (resolveWithin x limit room node) := by
  intro s hs
  have hremembered : ∀ resolve : Inquiry TypeSet, (remembered x.forest node resolve).run.Meets (fun _ _ => True)
      (fun r s => Stacked x.forest stack s ∧ NoCycle r) s := by
    intro resolve
    refine remembered_watched trivial trivial trivial (fun _ _ => ⟨hs, nofun⟩) (fun _ _ _ => ⟨hs, nofun⟩)
      (fun _ _ hnot => ?_) fun _ hnot => ?_
    · rw [hadds] at hnot
      cases hnot
    · rw [hs.resolving_eq] at hnot
      exact absurd hnode hnot
  cases room <;> exact hremembered _

/-- A node that is not on a chained stack is resolved without a cycle. -/
theorem resolveWithin_untangled {x : Index} {first : NodeId} (hsep : x.Separate first) (limit room : Nat)
    {node : NodeId} {stack : List NodeId} (hchain : Chained x first (node :: stack))
    (hnodup : (node :: stack).Nodup) : Untangled x.forest stack (resolveWithin x limit room node) := by
  have hnode : node ∉ stack := (nodup_cons.mp hnodup).1
  induction room generalizing node stack with
  | zero =>
    intro s hs
    have hresolving : node ∉ s.resolving := by rwa [hs.resolving_eq]
    exact remembered_watched trivial trivial trivial (fun _ _ => ⟨hs, nofun⟩) (fun _ h => absurd h hresolving)
      (fun _ h => absurd h hresolving) fun _ _ => ⟨hs, nofun⟩
  | succ room ih =>
    intro s hs
    have hresolving : node ∉ s.resolving := by rwa [hs.resolving_eq]
    have hstrategy : Untangled x.forest (node :: stack)
        ((dispatch x node).interpret (answer x (resolveWithin x limit room))) := by
      cases hasks : (dispatch x node).isDone with
      | true =>
        cases hd : dispatch x node with
        | done t => exact fun s hs => ⟨hs, nofun⟩
        | ask q next =>
          rw [hd] at hasks
          cases hasks
      | false =>
        have hstep : ∀ n, n ∉ node :: stack → Chained x first (n :: node :: stack) →
            Untangled x.forest (node :: stack) (resolveWithin x limit room n) := fun n hn hc =>
          ih hc (nodup_cons.mpr ⟨hn, hnodup⟩) hn
        refine strategy_untangled (fun n hn hg => hstep n hn (.guarded hg hasks hchain)) (fun n hop => ?_)
          (dispatch_asks x node) nofun
        by_cases hn : n ∈ node :: stack
        · cases hadds : addsNothing (x.forest.kind n) with
          | true => exact untangled_of_mem hn hadds
          | false => exact absurd hn (hchain.operand_not_mem hsep hnodup hasks hop hadds)
        · exact hstep n hn (.operand hop hasks hchain)
    refine remembered_watched trivial trivial trivial (fun _ _ => ⟨hs, nofun⟩) (fun _ h => absurd h hresolving)
      (fun _ h => absurd h hresolving) fun _ _ => ?_
    rw [framed_watched]
    refine ⟨trivial, (hstrategy _ (hs.push hnode)).mono fun r s _ h => ⟨trivial, h.1.leave _, ?_⟩⟩
    intro chain he
    cases r with
    | ok found => cases he
    | error e =>
      cases he
      exact h.2 chain rfl

end Inquiry

/-- The types of a node are found without a cycle, whatever the limit of the stack, if the guarded nodes and the node
are apart from each other. -/
theorem Index.resolve_ne_circular (x : Index) (limit : Nat) (node : NodeId) (h : x.Separate node)
    (chain : List String) : ((x.resolve limit node).run.run {}).1 ≠ .error (.circular chain) := by
  have hnew : Session.Stacked x.forest [] {} := ⟨rfl, rfl, ⟨nofun, nofun⟩⟩
  have hrun := Inquiry.resolveWithin_untangled h limit limit .start (by simp) {} hnew
  exact ((Dialogue.meets_iff _ _).mp hrun).2.2 chain

/-- Two properties that are written with the values of each other. -/
def Index.mutualProperties : Index :=
  .ofProgram ("<?php\nclass A \x7b public $p = 1; function f() \x7b $this->p = -$this->q; " ++
    "$this->q = -$this->p; return $this->p; \x7d \x7d\n")

theorem Index.resolve_ne_circular_mutualProperties :
    mutualProperties.Separate 20 ∧
      ∀ chain, ((mutualProperties.resolve 512 20).run.run {}).1 ≠ .error (.circular chain) := by
  have h : mutualProperties.Separate 20 := separate_of_separates (by decide +kernel)
  exact ⟨h, resolve_ne_circular mutualProperties 512 20 h⟩

/-- A property that is written with an operation inside of an operation on it. -/
def Index.negatedProperty : Index :=
  .ofProgram "<?php\nclass A \x7b function f() \x7b $this->p = -(-$this->p); \x7d \x7d\n"

/-- A program without constants of classes and without calls, where the inner of two operations is refused with a cycle:
the property that it reads asks for the value around it, and that asks for the inner operation. -/
theorem Index.resolve_circular_inside_value :
    (negatedProperty.forest.ids.all fun n => match negatedProperty.forest.kind n with
      | .classConstantFetch _ | .methodCall .. | .staticCall _ => false
      | _ => true) = true ∧
      negatedProperty.failureAfter? 512 [] 4 =
        some (.circular ["Unary", "PropertyFetch(p)", "Unary", "Unary"]) := by
  decide +kernel

end EventAtlas
