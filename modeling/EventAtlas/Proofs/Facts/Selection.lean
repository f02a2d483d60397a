import EventAtlas.Proofs.Facts.Criteria
import EventAtlas.Proofs.Facts.Runs
import EventAtlas.Proofs.Link.Ancestry

/-!
# What the queries of collectors find

A collector becomes queries for methods, for calls of methods and for calls of functions. What these find is said here
without queries, by the criteria of the collector: which methods may listen or subscribe (`Collector.SelectsMethod`) and
which calls may dispatch (`Collector.SelectsCall`, `Collector.SelectsFunction`).

Only a query for calls of methods asks for types. It asks for those of every receiver whose call has an admitted name,
so which calls it finds can be read off from any later session.
-/

namespace EventAtlas

open List Predicate

/-! ## Selections -/

namespace Collector

/-- The method may be a listener or a subscriber: others may call it on an object, it is no constructor, its unit is not
taken for an interface, and the collector admits both names. -/
structure SelectsMethod (c : Collector) (x : Index) (fqn method : String) (node : NodeId) : Prop where
  member : ∃ u ∈ x.units, u.fqn = fqn ∧ node ∈ x.forest.members u.node
  noInterface : ∀ u, x.find? fqn = some u → u.kind ≠ .interfaceUnit
  callable : ∃ m, x.forest.kind node = .method method m ∧ m.visibility = .isPublic ∧ m.isStatic = false
  noConstructor : Text.sameLetters method "__construct" = false
  fqn_admitted : c.Admits .fqn fqn
  method_admitted : c.Admits .methodName method

/-- The type is admitted by its name or by that of a supertype. -/
def AdmitsType (c : Collector) (x : Index) (t : Ty) : Prop :=
  c.Admits .fqn t.name ∨
    ∃ d, Query.candidateClass? x t = some d ∧ ∃ name ∈ x.forest.supertypeNames d, c.Admits .fqn name

/-- The node calls a method of an admitted name, and of the types that the session gives for the receiver one is known
and admitted. -/
def SelectsCall (c : Collector) (x : Index) (limit : Nat) (s : Session) (site : NodeId) : Prop :=
  ∃ called receiver types,
    ((∃ nullsafe, x.forest.kind site = .methodCall called nullsafe) ∨ x.forest.kind site = .staticCall called) ∧
      c.Admits .methodName called ∧ x.forest.firstChild? site = some receiver ∧
        x.answerIn limit s receiver = .ok types ∧ ∃ t ∈ types.known.toList, c.AdmitsType x t

/-- The node calls a function, and the collector has criteria for names only, which admit that of the function in full
or its last segment. -/
def SelectsFunction (c : Collector) (x : Index) (site : NodeId) : Prop :=
  c.patterns .fqn = [] ∧ c.patterns .methodName ≠ [] ∧ x.forest.kind site = .functionCall ∧
    ∃ called, (x.forest.firstChild? site).bind x.forest.nameOf? = some called ∧
      (c.Admits .methodName called ∨ c.Admits .methodName (Text.afterLast '\\' called))

end Collector

/-- The candidate is a call below a file, inside a unit and inside a method or a function, and has its names from
these. -/
structure Candidate.IsCallIn (k : Candidate) (x : Index) (policy : EventPolicy) : Prop where
  kind : k.kind = .dispatch
  event : k.event = policy.argument? x.forest k.node
  reached : k.node ∈ x.forest.reached
  unit : ∃ u, x.unitFor? k.node = some u ∧ u.fqn = k.fqn
  caller : Query.caller? x.forest k.node = some k.method

/-! ## Conditions -/

namespace Predicate

variable {p : Predicate Pattern} {source : String}

/-- A condition with one pattern compiles if the pattern does. -/
theorem compile_eq_ok {c : Predicate String} {Q : Pattern → Predicate Pattern}
    (hc : compile c = do pure (Q (← pattern source))) (h : compile c = .ok p) :
    ∃ q, Pattern.parse? source = some q ∧ p = Q q := by
  simp only [hc, pattern, bind, Except.bind, pure, Except.pure] at h
  cases hq : Pattern.parse? source <;> simp_all

theorem compile_callSite {receiver method : String}
    (h : compile (.callSite receiver method) = .ok p) : ∃ r m, Pattern.parse? receiver = some r ∧
      Pattern.parse? method = some m ∧ p = .callSite r m := by
  simp only [compile, pattern, bind, Except.bind, pure, Except.pure] at h
  cases hr : Pattern.parse? receiver <;> cases hm : Pattern.parse? method <;> simp_all

theorem compileAll_cons {p : Predicate String} {rest : List (Predicate String)} {l : List (Predicate Pattern)}
    (h : compileAll (p :: rest) = .ok l) : ∃ q l', compile p = .ok q ∧ compileAll rest = .ok l' ∧ l = q :: l' := by
  simp only [compileAll, bind, Except.bind, pure, Except.pure] at h
  cases hq : compile p <;> cases hl : compileAll rest <;> simp_all

theorem compileAll_singleton {p : Predicate String} {l : List (Predicate Pattern)}
    (h : compileAll [p] = .ok l) : ∃ q, compile p = .ok q ∧ l = [q] := by
  obtain ⟨q, l', hq, hl', rfl⟩ := compileAll_cons h
  obtain rfl : [] = l' := Except.ok.inj hl'
  exact ⟨q, hq, rfl⟩

theorem compileAll_append {l l' : List (Predicate String)} {r : List (Predicate Pattern)}
    (h : compileAll (l ++ l') = .ok r) : ∃ r₁ r₂, compileAll l = .ok r₁ ∧ compileAll l' = .ok r₂ ∧ r = r₁ ++ r₂ := by
  induction l generalizing r with
  | nil => exact ⟨[], r, rfl, h, rfl⟩
  | cons p rest ih =>
    obtain ⟨q, t, hq, ht, rfl⟩ := compileAll_cons h
    obtain ⟨r₁, r₂, h₁, h₂, rfl⟩ := ih ht
    refine ⟨q :: r₁, r₂, ?_, h₂, rfl⟩
    simp only [compileAll, hq, h₁, bind, Except.bind, pure, Except.pure]

/-- A condition that may be missing. -/
theorem compileAll_optional {P : String → Predicate String} {Q : Pattern → Predicate Pattern}
    (hP : ∀ source, compile (P source) = do pure (Q (← pattern source)))
    {o : Option String} {r : List (Predicate Pattern)} (h : compileAll (o.toList.map P) = .ok r) :
    o = none ∧ r = [] ∨ ∃ source m, o = some source ∧ Pattern.parse? source = some m ∧ r = [Q m] := by
  cases o with
  | none => exact .inl ⟨rfl, (Except.ok.inj h).symm⟩
  | some source =>
    obtain ⟨p, hp, rfl⟩ := compileAll_singleton h
    obtain ⟨m, hm, rfl⟩ := compile_eq_ok (hP source) hp
    exact .inr ⟨source, m, rfl, hm, rfl⟩

end Predicate

namespace Query

open Extract

variable {x : Index} {limit : Nat} {q : Query} {c : Collector} {policy : EventPolicy} {k : Candidate}

theorem ofPredicates_eq_ok {conditions : List (Predicate String)} (h : ofPredicates conditions false = .ok q) :
    q.first = false ∧ compileAll conditions = .ok q.predicates ∧
      targetFrom .units q.predicates = .ok q.target := by
  simp only [ofPredicates, bind, Except.bind, pure, Except.pure] at h
  split at h
  · cases h
  · next compiled hcompiled =>
    split at h
    · cases h
    · next target htarget =>
      cases h
      exact ⟨rfl, hcompiled, htarget⟩

/-! ## Methods -/

/-- The conditions on use cases. -/
def useCaseConditions (c : Collector) : List (Predicate String) :=
  (unitPattern? c).toList.map unitMatching ++ (methodPattern? c).toList.map methodName

/-- The query for use cases asks for no types. -/
theorem run_of_useCaseConditions (x : Index) (limit : Nat) (h : ofPredicates (useCaseConditions c) false = .ok q) :
    ∃ found, q.run x limit = pure found := by
  obtain ⟨target, predicates, first⟩ := q
  obtain ⟨rfl, hcompiled, htarget⟩ := ofPredicates_eq_ok h
  obtain ⟨r₁, r₂, h₁, h₂, rfl⟩ := compileAll_append hcompiled
  -- Whether or not there are conditions of the two kinds, what is asked for are units or methods.
  rcases compileAll_optional (Q := .unitMatching) (fun _ => rfl) h₁ with ⟨-, rfl⟩ | ⟨_, _, -, -, rfl⟩ <;>
    rcases compileAll_optional (Q := .methodName) (fun _ => rfl) h₂ with ⟨-, rfl⟩ | ⟨_, _, -, -, rfl⟩ <;>
    cases htarget <;> exact ⟨_, rfl⟩

/-- The conditions on listeners and subscribers. -/
def handlerConditions (c : Collector) : List (Predicate String) :=
  (unitPattern? c).toList.map unitMatching ++ [.methodName ((methodPattern? c).getD anything)]

theorem of_handlerConditions (h : ofPredicates (handlerConditions c) false = .ok q) : ∃ units m,
    q = ⟨.methods, units ++ [.methodName m], false⟩ ∧
      Pattern.parse? ((methodPattern? c).getD anything) = some m ∧
      (unitPattern? c = none ∧ units = [] ∨ ∃ source p, unitPattern? c = some source ∧
        Pattern.parse? source = some p ∧ units = [.unitMatching p]) := by
  obtain ⟨target, predicates, first⟩ := q
  obtain ⟨rfl, hcompiled, htarget⟩ := ofPredicates_eq_ok h
  obtain ⟨units, r, hunits, hr, rfl⟩ := compileAll_append hcompiled
  obtain ⟨p, hp, rfl⟩ := compileAll_singleton hr
  obtain ⟨m, hm, rfl⟩ := compile_eq_ok (Q := .methodName) rfl hp
  have hunits := compileAll_optional (Q := .unitMatching) (fun _ => rfl) hunits
  refine ⟨units, m, ?_, hm, hunits⟩
  rcases hunits with ⟨-, rfl⟩ | ⟨_, _, -, -, rfl⟩ <;> cases htarget <;> rfl

/-- The query for listeners and subscribers asks for no types. -/
theorem run_of_handlerConditions (x : Index) (limit : Nat) (h : ofPredicates (handlerConditions c) false = .ok q) :
    q.run x limit = pure (q.methods x) := by
  obtain ⟨units, m, rfl, -, -⟩ := of_handlerConditions h
  rfl

/-- It passes the units that the collector admits. -/
theorem unitPasses_of_handlerConditions (h : ofPredicates (handlerConditions c) false = .ok q) (halt : c.Alternates)
    (u : ClassUnit) : q.unitPasses x.forest u = true ↔ c.Admits .fqn u.fqn := by
  obtain ⟨units, m, rfl, -, ⟨hnone, rfl⟩ | ⟨source, p, hsource, hp, rfl⟩⟩ := of_handlerConditions h
  · simp [unitPasses, unitSatisfies, Collector.Admits, Collector.alternation?_eq_none.mp hnone]
  · simp [unitPasses, unitSatisfies, halt.isMatch_iff hsource hp]

/-- It passes the names that the collector admits. -/
theorem namePasses_of_handlerConditions (h : ofPredicates (handlerConditions c) false = .ok q) (halt : c.Alternates)
    (name : String) : q.predicates.all (nameSatisfies name) = true ↔ c.Admits .methodName name := by
  obtain ⟨units, m, rfl, hm, hunits⟩ := of_handlerConditions h
  rcases hunits with ⟨-, rfl⟩ | ⟨_, _, -, -, rfl⟩ <;> simp [nameSatisfies, halt.isMatch_iff_of_getD hm]

/-- If all matches are asked for, nothing is passed over. -/
theorem search_eq_flatMap {α : Type} (hfirst : q.first = false) (visit : α → List QueryMatch) (items : List α) :
    q.search visit items = items.flatMap visit := by
  induction items with
  | nil => rfl
  | cons item rest ih => simp only [search, isDone, hfirst, Bool.false_and, Bool.false_eq_true, if_false, ih,
      flatMap_cons]

theorem mem_methods (hfirst : q.first = false) {found : QueryMatch} : found ∈ q.methods x ↔
    ∃ u ∈ x.units, q.unitPasses x.forest u = true ∧ ∃ node ∈ x.forest.members u.node, ∃ name m,
      x.forest.kind node = .method name m ∧ q.predicates.all (nameSatisfies name) = true ∧
        found = .method u.fqn name node := by
  have hmatch (u : ClassUnit) (node : NodeId) : q.methodMatch? x.forest u node = some found ↔
      ∃ name m, x.forest.kind node = .method name m ∧ q.predicates.all (nameSatisfies name) = true ∧
        found = .method u.fqn name node := by
    unfold methodMatch?
    split
    · next name m hk =>
      rw [hk, Option.ite_none_right_eq_some]
      constructor
      · rintro ⟨hall, ⟨⟩⟩
        exact ⟨name, m, rfl, hall, rfl⟩
      · rintro ⟨_, _, ⟨⟩, hall, rfl⟩
        exact ⟨hall, rfl⟩
    · next hk => exact iff_of_false nofun fun ⟨name, m, hm, _⟩ => hk name m hm
  simp only [methods, search_eq_flatMap hfirst, mem_flatMap, mem_ite_nil_right, Option.mem_toList,
    hmatch]

theorem handles_eq_true {name : String} {m : Modifiers} : handles name m = true ↔
    m.visibility = .isPublic ∧ m.isStatic = false ∧ Text.sameLetters name "__construct" = false := by
  simp [handles, and_assoc]

theorem handler?_eq_some {kind : FactKind} {fqn name : String} {node : NodeId} {m : Modifiers}
    (hkind : x.forest.kind node = .method name m) :
    handler? x policy kind (.method fqn name node) = some k ↔
      (∀ u, x.find? fqn = some u → u.kind ≠ .interfaceUnit) ∧ m.visibility = .isPublic ∧ m.isStatic = false ∧
        Text.sameLetters name "__construct" = false ∧ k = ⟨kind, fqn, name, node, policy.parameter? x.forest node⟩ := by
  simp only [handler?, hkind]
  split
  · next hany =>
    obtain ⟨u, hu, hkind⟩ := (Option.any_eq_true _ _).mp hany
    exact iff_of_false nofun fun h => h.1 u hu (by simpa using hkind)
  · next hany =>
    have hfind : ∀ u, x.find? fqn = some u → u.kind ≠ .interfaceUnit := by
      intro u hu hkind
      simp [hu, hkind] at hany
    rw [Option.ite_none_right_eq_some, handles_eq_true, Option.some.injEq, eq_comm (b := k), and_assoc, and_assoc]
    exact (and_iff_right hfind).symm

/-- The candidates among the methods that are found are the methods that the collector selects. -/
theorem mem_filterMap_handler? (h : ofPredicates (handlerConditions c) false = .ok q) (halt : c.Alternates)
    {kind : FactKind} :
    k ∈ (q.methods x).filterMap (handler? x policy kind) ↔
      k.kind = kind ∧ k.event = policy.parameter? x.forest k.node ∧ c.SelectsMethod x k.fqn k.method k.node := by
  have hunit := unitPasses_of_handlerConditions (x := x) h halt
  have hname := namePasses_of_handlerConditions h halt
  have hfirst := (ofPredicates_eq_ok h).1
  rw [mem_filterMap]
  constructor
  · rintro ⟨found, hfound, hk⟩
    obtain ⟨u, hu, hpasses, node, hnode, name, m, hkind, hall, rfl⟩ := (mem_methods hfirst).mp hfound
    obtain ⟨hfind, hpublic, hstatic, hnew, rfl⟩ := (handler?_eq_some hkind).mp hk
    exact ⟨rfl, rfl, ⟨u, hu, rfl, hnode⟩, hfind, ⟨m, hkind, hpublic, hstatic⟩, hnew, (hunit u).mp hpasses,
      (hname name).mp hall⟩
  · obtain ⟨kind', fqn, name, node, event⟩ := k
    dsimp only
    rintro ⟨rfl, rfl, ⟨u, hu, rfl, hnode⟩, hfind, ⟨m, hkind, hpublic, hstatic⟩, hnew, hfqn, hmethod⟩
    refine ⟨.method u.fqn name node, (mem_methods hfirst).mpr ?_, (handler?_eq_some hkind).mpr ?_⟩
    · exact ⟨u, hu, (hunit u).mpr hfqn, node, hnode, name, m, hkind, (hname name).mpr hmethod, rfl⟩
    · exact ⟨hfind, hpublic, hstatic, hnew, rfl⟩

/-! ## Calls of methods -/

variable {s t : Session} {receiver method : Pattern} {site : NodeId} {called : String}

/-- A call as a match, with the unit and the method or function around it. -/
def matchAt (x : Index) (site : NodeId) (called : String) : QueryMatch :=
  .call site called ((x.unitFor? site).map ClassUnit.fqn) (caller? x.forest site)

theorem calledAt?_of_callSites {f : Forest} (hq : q.target = .callSites) : q.calledAt? f site = some called ↔
    (∃ nullsafe, f.kind site = .methodCall called nullsafe) ∨ f.kind site = .staticCall called := by
  unfold calledAt?
  rw [hq]
  cases f.kind site <;> simp

/-- The name of a call matches, and so does a type that the session remembers for the receiver. -/
def Takes (x : Index) (s : Session) (receiver method : Pattern) (site : NodeId) (called : String) : Prop :=
  method.isMatch called = true ∧ ∃ node types, x.forest.firstChild? site = some node ∧
    s.memo.find? node = some types ∧ receiverMatches x types receiver = true

/-- If the name of a call matches, the session remembers the types of the receiver. -/
def Heard (x : Index) (s : Session) (method : Pattern) (site : NodeId) (called : String) : Prop :=
  method.isMatch called = true → ∀ node, x.forest.firstChild? site = some node →
    ∃ types, s.memo.find? node = some types

theorem Heard.later (h : Heard x s method site called) (hlater : s.Later t) : Heard x t method site called := by
  intro hname node hnode
  obtain ⟨types, htypes⟩ := h hname node hnode
  exact ⟨types, hlater.memo htypes⟩

/-- Later nothing is learnt about a call whose receiver was heard. -/
theorem Heard.takes_iff (h : Heard x s method site called) (hlater : s.Later t) :
    Takes x t receiver method site called ↔ Takes x s receiver method site called := by
  constructor
  · rintro ⟨hname, node, types, hnode, htypes, hmatch⟩
    obtain ⟨types', htypes'⟩ := h hname node hnode
    obtain rfl := Option.some.inj ((hlater.memo htypes').symm.trans htypes)
    exact ⟨hname, node, types', hnode, htypes', hmatch⟩
  · rintro ⟨hname, node, types, hnode, htypes, hmatch⟩
    exact ⟨hname, node, types, hnode, hlater.memo htypes, hmatch⟩

theorem callPasses_runs (hidle : s.Idle) : s.Runs (callPasses x limit site called [.callSite receiver method])
    fun b t => Heard x t method site called ∧ (b = true ↔ Takes x t receiver method site called) := by
  unfold callPasses
  split
  · next hname =>
    split
    · next hnode =>
      refine .pure hidle ⟨fun _ node hsome => ?_, iff_of_false nofun ?_⟩
      · cases hnode.symm.trans hsome
      · rintro ⟨-, node, -, hsome, -⟩
        cases hnode.symm.trans hsome
    · next node hnode =>
      refine (Session.Runs.resolve x limit node hidle).bind fun types t hlater htypes => ?_
      have hheard : Heard x t method site called := by
        intro _ n hn
        cases hnode.symm.trans hn
        exact ⟨types, htypes⟩
      split
      · next hmatch =>
        exact .pure hlater.idle ⟨hheard, iff_of_true rfl ⟨hname, node, types, hnode, htypes, hmatch⟩⟩
      · next hmatch =>
        refine .pure hlater.idle ⟨hheard, iff_of_false nofun ?_⟩
        rintro ⟨-, n, types', hn, htypes', hmatch'⟩
        cases hnode.symm.trans hn
        cases htypes.symm.trans htypes'
        exact hmatch hmatch'
  · next hname =>
    exact .pure hidle ⟨fun h => absurd h hname, iff_of_false nofun fun h => hname h.1⟩

/-- One step of a query for calls of methods. -/
theorem callMatch?_runs (hq : q.predicates = [.callSite receiver method]) (hidle : s.Idle) :
    s.Runs (q.callMatch? x limit site) fun out t =>
      (∀ called, q.calledAt? x.forest site = some called → Heard x t method site called) ∧
        ∀ found, out = some found ↔ ∃ called, q.calledAt? x.forest site = some called ∧
          Takes x t receiver method site called ∧ found = matchAt x site called := by
  have hplace : q.placePasses x (x.unitFor? site) = true := by
    rw [placePasses, hq]
    rfl
  unfold callMatch?
  cases q.calledAt? x.forest site with
  | none => exact .pure hidle ⟨nofun, fun _ => iff_of_false nofun nofun⟩
  | some called =>
    simp only [hplace, hq, if_true]
    refine (callPasses_runs hidle).bind fun b t hlater ⟨hheard, htakes⟩ => ?_
    cases b with
    | true =>
      refine .pure hlater.idle ⟨?_, fun found => ?_⟩
      · rintro _ ⟨⟩
        exact hheard
      · constructor
        · rintro ⟨⟩
          exact ⟨called, rfl, htakes.mp rfl, rfl⟩
        · rintro ⟨_, ⟨⟩, -, rfl⟩
          rfl
    | false =>
      refine .pure hlater.idle ⟨?_, fun found => iff_of_false nofun ?_⟩
      · rintro _ ⟨⟩
        exact hheard
      · rintro ⟨_, ⟨⟩, h, -⟩
        cases htakes.mpr h

/-- A query for calls of methods asks for every receiver that matters and finds the calls that it takes. -/
theorem callsAmong_runs (hq : q.predicates = [.callSite receiver method]) (hfirst : q.first = false)
    (sites : List NodeId) (hidle : s.Idle) : s.Runs (q.callsAmong x limit sites) fun found t =>
      (∀ site ∈ sites, ∀ called, q.calledAt? x.forest site = some called → Heard x t method site called) ∧
        ∀ m, m ∈ found ↔ ∃ site ∈ sites, ∃ called, q.calledAt? x.forest site = some called ∧
          Takes x t receiver method site called ∧ m = matchAt x site called := by
  induction sites generalizing s with
  | nil => exact .pure hidle ⟨nofun, fun m => iff_of_false nofun nofun⟩
  | cons site rest ih =>
    unfold callsAmong
    refine (callMatch?_runs hq hidle).bind fun out t hlater ⟨hheard, hout⟩ => ?_
    -- What the first node gives is said of the session in which the rest ends.
    have hrest : t.Runs (q.callsAmong x limit rest) fun found u =>
        (∀ n ∈ site :: rest, ∀ called, q.calledAt? x.forest n = some called → Heard x u method n called) ∧
          ∀ m, (out = some m ∨ m ∈ found) ↔ ∃ n ∈ site :: rest, ∃ called, q.calledAt? x.forest n = some called ∧
            Takes x u receiver method n called ∧ m = matchAt x n called := by
      refine (ih hlater.idle).imp fun found u hu ⟨hheard', hfound⟩ => ⟨?_, fun m => ?_⟩
      · intro n hn called hcalled
        obtain rfl | hn := mem_cons.mp hn
        · exact (hheard called hcalled).later hu
        · exact hheard' n hn called hcalled
      · have hhere : out = some m ↔ ∃ called, q.calledAt? x.forest site = some called ∧
            Takes x u receiver method site called ∧ m = matchAt x site called := by
          rw [hout]
          refine exists_congr fun called => and_congr_right fun hcalled => ?_
          rw [(hheard called hcalled).takes_iff hu]
        rw [hhere, hfound]
        simp only [mem_cons, exists_eq_or_imp]
    cases out with
    | none => exact hrest.imp fun found u _ ⟨hheard', hfound⟩ => ⟨hheard', fun m => by simpa using hfound m⟩
    | some m =>
      simp only [hfirst, Bool.false_eq_true, if_false]
      refine hrest.bind fun found u hu ⟨hheard', hfound⟩ => .pure hu.idle ⟨hheard', fun m' => ?_⟩
      rw [mem_cons, ← hfound, Option.some.injEq, eq_comm]

/-- Of calls that are found, those inside a unit and a method or a function are candidates. -/
theorem mem_filterMap_dispatch? {found : List QueryMatch} {P : NodeId → String → Prop}
    (h : ∀ m, m ∈ found ↔ ∃ site ∈ x.forest.reached, ∃ called, P site called ∧ m = matchAt x site called) :
    k ∈ found.filterMap (dispatch? x policy) ↔ k.IsCallIn x policy ∧ ∃ called, P k.node called := by
  rw [mem_filterMap]
  constructor
  · rintro ⟨m, hm, hk⟩
    obtain ⟨site, hsite, called, hP, rfl⟩ := (h m).mp hm
    unfold matchAt dispatch? at hk
    split at hk
    · next node called' fqn caller hmatch =>
      cases hk
      injection hmatch with hnode _ hunit hcaller
      subst hnode
      exact ⟨⟨rfl, rfl, hsite, Option.map_eq_some_iff.mp hunit, hcaller⟩, called, hP⟩
    · cases hk
  · rintro ⟨hk, called, hP⟩
    obtain ⟨u, hunit, hfqn⟩ := hk.unit
    refine ⟨matchAt x k.node called, (h _).mpr ⟨k.node, hk.reached, called, hP, rfl⟩, ?_⟩
    simp only [matchAt, hunit, hk.caller, Option.map_some, hfqn, dispatch?, ← hk.event, ← hk.kind]

theorem of_callConditions
    (h : ofPredicates [.callSite ((unitPattern? c).getD anything) ((methodPattern? c).getD anything)] false = .ok q) :
    ∃ r m, q = ⟨.callSites, [.callSite r m], false⟩ ∧
      Pattern.parse? ((unitPattern? c).getD anything) = some r ∧
      Pattern.parse? ((methodPattern? c).getD anything) = some m := by
  obtain ⟨target, predicates, first⟩ := q
  obtain ⟨rfl, hcompiled, htarget⟩ := ofPredicates_eq_ok h
  obtain ⟨p, hp, rfl⟩ := compileAll_singleton hcompiled
  obtain ⟨r, m, hr, hm, rfl⟩ := compile_callSite hp
  cases htarget
  exact ⟨r, m, rfl, hr, hm⟩

theorem receiverMatches_iff {r : Pattern} (hr : ∀ text, r.isMatch text = true ↔ c.Admits .fqn text)
    {types : TypeSet} : receiverMatches x types r = true ↔ ∃ t ∈ types.known.toList, c.AdmitsType x t := by
  simp only [receiverMatches, candidateMatches, Collector.AdmitsType, any_eq_true, Bool.or_eq_true,
    Option.any_eq_true, hr]

/-- In a later session, the calls that were taken are those that the collector selects. -/
theorem selectsCall_iff {u : Session} (hq : q.target = .callSites)
    (hr : ∀ text, receiver.isMatch text = true ↔ c.Admits .fqn text)
    (hm : ∀ text, method.isMatch text = true ↔ c.Admits .methodName text)
    (hheard : ∀ called, q.calledAt? x.forest site = some called → Heard x t method site called) (hlater : t.Later u) :
    (∃ called, q.calledAt? x.forest site = some called ∧ Takes x t receiver method site called) ↔
      c.SelectsCall x limit u site := by
  constructor
  · rintro ⟨called, hcalled, hname, node, types, hnode, htypes, hmatch⟩
    exact ⟨called, node, types, (calledAt?_of_callSites hq).mp hcalled, (hm called).mp hname, hnode,
      x.answerIn_of_memo limit (hlater.memo htypes), (receiverMatches_iff hr).mp hmatch⟩
  · rintro ⟨called, node, types, hcall, hname, hnode, hanswer, hmatch⟩
    have hcalled := (calledAt?_of_callSites (q := q) hq).mpr hcall
    obtain ⟨types', htypes'⟩ := hheard called hcalled ((hm called).mpr hname) node hnode
    have hanswer' := x.answerIn_of_memo limit (hlater.memo htypes')
    obtain rfl := Except.ok.inj (hanswer'.symm.trans hanswer)
    exact ⟨called, hcalled, (hm called).mpr hname, node, types', hnode, htypes', (receiverMatches_iff hr).mpr hmatch⟩

/-- The candidates among the calls of methods that are found are those that the collector selects, in any later
session. -/
theorem run_calls_runs (h : ofPredicates [.callSite ((unitPattern? c).getD anything)
      ((methodPattern? c).getD anything)] false = .ok q) (policy : EventPolicy) (hidle : s.Idle) :
    s.Runs (q.run x limit) fun found t => c.Alternates → ∀ u, t.Later u → ∀ k,
      k ∈ found.filterMap (dispatch? x policy) ↔ k.IsCallIn x policy ∧ c.SelectsCall x limit u k.node := by
  obtain ⟨r, m, rfl, hr, hm⟩ := of_callConditions h
  simp only [run, calls, ← Forest.reached_eq]
  refine (callsAmong_runs rfl rfl _ hidle).imp fun found t _ hcalls halt u hlater k => ?_
  obtain ⟨hheard, hfound⟩ := hcalls
  rw [mem_filterMap_dispatch? (P := fun site called => calledAt? _ x.forest site = some called ∧
    Takes x t r m site called) (by simpa only [and_assoc] using hfound)]
  refine and_congr_right fun hk => ?_
  exact selectsCall_iff rfl (fun _ => halt.isMatch_iff_of_getD hr) (fun _ => halt.isMatch_iff_of_getD hm)
    (hheard k.node hk.reached) hlater

/-! ## Calls of functions -/

theorem calledAt?_of_functionCalls {f : Forest} (hq : q.target = .functionCalls) : q.calledAt? f site = some called ↔
    f.kind site = .functionCall ∧ (f.firstChild? site).bind f.nameOf? = some called := by
  unfold calledAt?
  rw [hq]
  cases f.kind site <;> simp

theorem callsAmong_of_pure {g : NodeId → Option QueryMatch} (hg : ∀ n, q.callMatch? x limit n = pure (g n))
    (hfirst : q.first = false) (sites : List NodeId) : q.callsAmong x limit sites = pure (sites.filterMap g) := by
  induction sites with
  | nil => rfl
  | cons site rest ih =>
    unfold callsAmong
    rw [hg, pure_bind, ih]
    cases hout : g site with
    | none => simp [hout]
    | some m => simp [hout, hfirst]

/-- The calls of functions that match. -/
def functionMatch? (x : Index) (p : Pattern) (site : NodeId) : Option QueryMatch :=
  (calledAt? ⟨.functionCalls, [.functionName p], false⟩ x.forest site).bind fun called =>
    if p.isMatch called || p.isMatch (Text.afterLast '\\' called) then some (matchAt x site called) else none

theorem functionMatch?_eq_some {p : Pattern} {found : QueryMatch} : functionMatch? x p site = some found ↔
    ∃ called, (x.forest.kind site = .functionCall ∧ (x.forest.firstChild? site).bind x.forest.nameOf? = some called) ∧
      (p.isMatch called = true ∨ p.isMatch (Text.afterLast '\\' called) = true) ∧ found = matchAt x site called := by
  simp only [functionMatch?, Option.bind_eq_some_iff, calledAt?_of_functionCalls, Option.ite_none_right_eq_some,
    Bool.or_eq_true, Option.some.injEq, @eq_comm _ found]

/-- A query for calls of functions asks for no types. -/
theorem run_functions (p : Pattern) : run ⟨.functionCalls, [.functionName p], false⟩ x limit =
    pure (x.forest.reached.filterMap (functionMatch? x p)) := by
  simp only [run, calls, ← Forest.reached_eq]
  refine callsAmong_of_pure (fun site => ?_) rfl _
  have hplace : placePasses ⟨.functionCalls, [.functionName p], false⟩ x (x.unitFor? site) = true := rfl
  unfold callMatch? functionMatch?
  cases calledAt? ⟨.functionCalls, [.functionName p], false⟩ x.forest site with
  | none => rfl
  | some called =>
    simp only [hplace, callPasses, Option.bind_some, if_true]
    split <;> rfl

/-- The candidates among the calls of functions that are found are those that the collector selects. -/
theorem run_functions_of_criteria (x : Index) (limit : Nat) (policy : EventPolicy) {source : String}
    (hreceivers : unitPattern? c = none) (hmethods : methodPattern? c = some source)
    (h : ofPredicates [.functionName source] false = .ok q) :
    ∃ found, q.run x limit = pure found ∧ (c.Alternates → ∀ k, k ∈ found.filterMap (dispatch? x policy) ↔
      k.IsCallIn x policy ∧ c.SelectsFunction x k.node) := by
  obtain ⟨target, predicates, first⟩ := q
  obtain ⟨rfl, hcompiled, htarget⟩ := ofPredicates_eq_ok h
  obtain ⟨p, hp, rfl⟩ := compileAll_singleton hcompiled
  obtain ⟨m, hm, rfl⟩ := compile_eq_ok (Q := .functionName) rfl hp
  cases htarget
  refine ⟨_, run_functions m, fun halt k => ?_⟩
  have hmatch (text : String) : m.isMatch text = true ↔ c.Admits .methodName text := halt.isMatch_iff hmethods hm
  have hfqn : c.patterns .fqn = [] := Collector.alternation?_eq_none.mp hreceivers
  have hnames : c.patterns .methodName ≠ [] := by
    intro hnil
    rw [methodPattern?, Collector.alternation?_eq_none.mpr hnil] at hmethods
    cases hmethods
  rw [mem_filterMap_dispatch? (P := fun site called =>
    (x.forest.kind site = .functionCall ∧ (x.forest.firstChild? site).bind x.forest.nameOf? = some called) ∧
      (c.Admits .methodName called ∨ c.Admits .methodName (Text.afterLast '\\' called)))]
  · simp only [Collector.SelectsFunction, hfqn, hnames, ne_eq, not_false_eq_true, true_and, and_assoc,
      exists_and_left]
  · intro found
    simp only [mem_filterMap, functionMatch?_eq_some, hmatch, and_assoc]

end Query

end EventAtlas
