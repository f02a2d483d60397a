import EventAtlas.Proofs.Facts.Findings
import EventAtlas.Proofs.Facts.Selection
import EventAtlas.Proofs.Index.Units

/-!
# Extraction accounts for every candidate

Every candidate that a collector selects is settled: it becomes a fact, or a diagnostic that names it. Only calls of
methods can be passed over without that, when a receiver exhausts the stack, and then a diagnostic says that the
collector was omitted. Nothing else is found: every fact that names an event and every other diagnostic comes from a
candidate that a collector selects (`Index.extract_accounts`).

All this is said about the session that extraction leaves, in which the types that decided about a candidate can be
asked for again.
-/

namespace EventAtlas

open List Extract FactSet

/-! ## Candidates -/

namespace Candidate

/-- In the session, the types of the node that carries the event name `event`. -/
def Names (k : Candidate) (x : Index) (limit : Nat) (s : Session) (event : String) : Prop :=
  ∃ node types, k.event = some node ∧ x.answerIn limit s node = .ok types ∧
    eventAmong (if declaredNullable x.forest node then types.withoutNull else types) = .ok event

/-- The node that carries the event is the one that the policy gives for the call or the method. -/
def Follows (k : Candidate) (x : Index) (policy : EventPolicy) : Prop :=
  k.event = if k.kind = .dispatch then policy.argument? x.forest k.node else policy.parameter? x.forest k.node

/-- What a candidate may become: the fact with its event, or a diagnostic. -/
inductive Settled (x : Index) (limit : Nat) (s : Session) (k : Candidate) : Finding → Prop where
  | fact {event : String} (h : k.Names x limit s event) :
    Settled x limit s k (.fact (factOf k event (origin x.forest k.node)))
  | diagnostic (reason : String) :
    Settled x limit s k (.diagnostic ⟨k.kind, k.fqn, some k.method, reason, some (origin x.forest k.node)⟩)

end Candidate

/-- The collector selects the candidate, as types are in the session. -/
def Collector.Selects (c : Collector) (x : Index) (limit : Nat) (policy : EventPolicy) (s : Session) (k : Candidate) :
    Prop :=
  match c.kind with
  | .useCase => False
  | .listener | .subscriber =>
    k.kind = c.kind ∧ k.event = policy.parameter? x.forest k.node ∧ c.SelectsMethod x k.fqn k.method k.node
  | .dispatch => k.IsCallIn x policy ∧ (c.SelectsCall x limit s k.node ∨ c.SelectsFunction x k.node)

theorem Collector.Selects.kind_ne_useCase {c : Collector} {x : Index} {limit : Nat} {policy : EventPolicy} {s : Session}
    {k : Candidate} (h : c.Selects x limit policy s k) : k.kind ≠ .useCase := by
  unfold Selects at h
  split at h
  · exact h.elim
  · next hc =>
    rw [h.1, hc]
    nofun
  · next hc =>
    rw [h.1, hc]
    nofun
  · rw [h.1.kind]
    nofun

/-- The diagnostic says that calls of methods were passed over. -/
def Diagnostic.IsOmission (d : Diagnostic) : Prop :=
  ∃ e, d = ⟨.dispatch, "*", none, "collector omitted: " ++ e, none⟩

namespace Finding

/-- The finding is a use case. -/
def IsUseCase : Finding → Prop
  | fact f => f.kind = .useCase
  | diagnostic _ => False

/-- The finding says that calls of methods were passed over. -/
def IsOmission : Finding → Prop
  | fact _ => False
  | diagnostic d => d.IsOmission

end Finding

namespace Extract

variable {x : Index} {limit : Nat} {policy : EventPolicy} {facts : FactSet} {s : Session} {c : Collector}
  {k : Candidate}

/-! ## Settling -/

theorem eventOf_runs (hidle : s.Idle) : s.Runs (eventOf x limit k) fun out t =>
    ∀ event, out = .ok event → ∀ u, t.Later u → k.Names x limit u event := by
  unfold eventOf
  split
  · exact .pure hidle nofun
  · next node hnode =>
    refine (Session.Runs.resolve x limit node hidle).attempt.bind fun out t hlater hout => ?_
    cases out with
    | error e => exact .pure hlater.idle nofun
    | ok types =>
      refine .pure hlater.idle fun event hevent u hu => ?_
      exact ⟨node, types, hnode, x.answerIn_of_memo limit (hu.memo (hout types rfl)), hevent⟩

/-- A candidate is settled by one finding. -/
theorem settle_runs (hidle : s.Idle) : s.Runs (settle x limit facts k) fun facts' t =>
    ∃ f, facts' = facts.add f ∧ ∀ u, t.Later u → k.Settled x limit u f := by
  refine (eventOf_runs hidle).bind fun out t hlater hout => ?_
  cases out with
  | ok event => exact .pure hlater.idle ⟨_, rfl, fun u hu => .fact (hout event rfl u hu)⟩
  | error reason => exact .pure hlater.idle ⟨_, rfl, fun _ _ => .diagnostic reason⟩

/-- Candidates are settled one by one, and nothing else is found. -/
theorem settleAll_runs (ks : List Candidate) (hidle : s.Idle) : s.Runs (settleAll x limit ks facts) fun facts' t =>
    ∃ l, facts' = facts.addAll l ∧ ∀ u, t.Later u →
      (∀ k ∈ ks, ∃ f ∈ l, k.Settled x limit u f) ∧ ∀ f ∈ l, ∃ k ∈ ks, k.Settled x limit u f := by
  induction ks generalizing s facts with
  | nil => exact .pure hidle ⟨[], rfl, fun _ _ => ⟨nofun, nofun⟩⟩
  | cons k rest ih =>
    unfold settleAll
    refine (settle_runs hidle).bind fun facts' t hlater ⟨f, hf, hsettled⟩ => ?_
    refine (ih hlater.idle).imp fun facts'' u hu ⟨l, hl, hrest⟩ => ⟨f :: l, ?_, fun v hv => ?_⟩
    · rw [hl, hf]
      rfl
    · obtain ⟨hevery, honly⟩ := hrest v hv
      have hfirst := hsettled v (hu.trans hv)
      refine ⟨forall_mem_cons.mpr ⟨⟨f, mem_cons_self, hfirst⟩, fun k' hk' => ?_⟩,
        forall_mem_cons.mpr ⟨⟨k, mem_cons_self, hfirst⟩, fun f' hf' => ?_⟩⟩
      · exact (hevery k' hk').imp fun _ h => ⟨mem_cons_of_mem _ h.1, h.2⟩
      · exact (honly f' hf').imp fun _ h => ⟨mem_cons_of_mem _ h.1, h.2⟩

/-! ## Collectors -/

theorem matchesOf_runs {kind : FactKind} {conditions : List (Predicate String)}
    {post : List QueryMatch → Session → Prop} (hidle : s.Idle)
    (h : ∀ q, Query.ofPredicates conditions false = .ok q → s.Runs (q.run x limit) post) :
    s.Runs (matchesOf x limit kind conditions facts) fun r t => (r.2 = facts ∧ post r.1 t) ∨
      r.1 = [] ∧ ∃ e, r.2 = facts.report ⟨kind, "*", none, "collector omitted: " ++ e, none⟩ := by
  unfold matchesOf
  split
  · exact .throw hidle
  · next q hq =>
    refine (h q hq).attempt.bind fun out t hlater hout => ?_
    cases out with
    | ok found => exact .pure hlater.idle (.inl ⟨rfl, hout found rfl⟩)
    | error e => exact .pure hlater.idle (.inr ⟨rfl, e, rfl⟩)

/-- A query that asks for no types is not omitted. -/
theorem matchesOf_runs_of_pure {kind : FactKind} {conditions : List (Predicate String)}
    {P : List QueryMatch → Prop} (hidle : s.Idle)
    (h : ∀ q, Query.ofPredicates conditions false = .ok q → ∃ found, q.run x limit = pure found ∧ P found) :
    s.Runs (matchesOf x limit kind conditions facts) fun r _ => r.2 = facts ∧ P r.1 := by
  unfold matchesOf
  split
  · exact .throw hidle
  · next q hq =>
    obtain ⟨found, hfound, hP⟩ := h q hq
    have hattempt : attempt (q.run x limit) = pure (.ok found) := by
      rw [hfound]
      rfl
    rw [hattempt, pure_bind]
    exact .pure hidle ⟨rfl, hP⟩

/-- Findings answer for what collectors select, and nothing else is among them but use cases and omissions. -/
structure Explained (x : Index) (limit : Nat) (policy : EventPolicy) (s : Session) (cs : List Collector)
    (l : List Finding) : Prop where
  sound : ∀ f ∈ l, f.IsUseCase ∨ f.IsOmission ∨
    ∃ c ∈ cs, ∃ k, k.Follows x policy ∧ (c.Alternates → c.Selects x limit policy s k) ∧ k.Settled x limit s f
  complete : ∀ c ∈ cs, c.Alternates → ∀ k, c.Selects x limit policy s k → (∃ f ∈ l, k.Settled x limit s f) ∨
    c.kind = .dispatch ∧ ¬ c.SelectsFunction x k.node ∧ ∃ f ∈ l, f.IsOmission

/-- The run adds findings to the facts, and the collectors explain them from then on. -/
def Explains (x : Index) (limit : Nat) (policy : EventPolicy) (s : Session) (cs : List Collector) (facts : FactSet)
    (m : Extract FactSet) : Prop :=
  s.Runs m fun facts' t => ∃ l, facts' = facts.addAll l ∧ ∀ u, t.Later u → Explained x limit policy u cs l

theorem Explained.append {cs cs' : List Collector} {l l' : List Finding} (h : Explained x limit policy s cs l)
    (h' : Explained x limit policy s cs' l') : Explained x limit policy s (cs ++ cs') (l ++ l') := by
  have hleft : ∀ {P : Finding → Prop}, (∃ f ∈ l, P f) → ∃ f ∈ l ++ l', P f :=
    fun ⟨f, hf, hP⟩ => ⟨f, mem_append_left _ hf, hP⟩
  have hright : ∀ {P : Finding → Prop}, (∃ f ∈ l', P f) → ∃ f ∈ l ++ l', P f :=
    fun ⟨f, hf, hP⟩ => ⟨f, mem_append_right _ hf, hP⟩
  constructor
  · intro f hf
    obtain hf | hf := mem_append.mp hf
    · exact (h.sound f hf).imp_right (.imp_right fun ⟨c, hc, hk⟩ => ⟨c, mem_append_left _ hc, hk⟩)
    · exact (h'.sound f hf).imp_right (.imp_right fun ⟨c, hc, hk⟩ => ⟨c, mem_append_right _ hc, hk⟩)
  · intro c hc halt k hk
    obtain hc | hc := mem_append.mp hc
    · exact (h.complete c hc halt k hk).imp hleft fun ⟨hkind, hfun, hom⟩ => ⟨hkind, hfun, hleft hom⟩
    · exact (h'.complete c hc halt k hk).imp hright fun ⟨hkind, hfun, hom⟩ => ⟨hkind, hfun, hright hom⟩

theorem useCase?_kind {m : QueryMatch} {f : Fact} (h : useCase? x m = some f) : f.kind = .useCase := by
  simp only [useCase?, Option.bind_eq_bind, Option.bind_eq_some_iff, Option.ite_none_right_eq_some] at h
  obtain ⟨-, -, u, -, -, h⟩ := h
  rw [← Option.some.inj h]
  rfl

/-- A collector of use cases adds use cases only. -/
theorem useCases_runs (hc : c.kind = .useCase) (hidle : s.Idle) :
    Explains x limit policy s [c] facts (useCases x limit c facts) := by
  have hfound : s.Runs (matchesOf x limit c.kind (Query.useCaseConditions c) facts) fun r _ => r.2 = facts ∧ True :=
    matchesOf_runs_of_pure hidle fun q hq => (Query.run_of_useCaseConditions x limit hq).imp fun _ h => ⟨h, trivial⟩
  refine hfound.bind fun ⟨found, facts'⟩ t hlater ⟨hfacts, _⟩ => ?_
  dsimp only at hfacts ⊢
  subst hfacts
  refine .pure hlater.idle ⟨(found.filterMap (useCase? x)).map .fact, ?_, fun u hu => ⟨?_, ?_⟩⟩
  · rw [addAll, foldl_map]
    rfl
  · intro f hf
    obtain ⟨fact, hfact, rfl⟩ := mem_map.mp hf
    obtain ⟨m, -, hm⟩ := mem_filterMap.mp hfact
    exact .inl (useCase?_kind hm)
  · intro c' hc' _ k hk
    cases mem_singleton.mp hc'
    rw [Collector.Selects, hc] at hk
    exact hk.elim

theorem follows_of_handler? {m : QueryMatch} (hc : c.kind ≠ .dispatch) (h : handler? x policy c.kind m = some k) :
    k.Follows x policy := by
  unfold handler? at h
  split at h
  · rw [Option.ite_none_left_eq_some] at h
    obtain ⟨-, h⟩ := h
    split at h
    · obtain ⟨-, h⟩ := Option.ite_none_right_eq_some.mp h
      cases h
      exact (if_neg hc).symm
    · cases h
  · cases h

theorem follows_of_dispatch? {m : QueryMatch} (h : dispatch? x policy m = some k) : k.Follows x policy := by
  unfold dispatch? at h
  split at h
  · cases h
    exact (if_pos rfl).symm
  · cases h

/-- A collector of listeners or subscribers settles the methods that it selects. -/
theorem handlers_runs (hc : c.kind = .listener ∨ c.kind = .subscriber) (hidle : s.Idle) :
    Explains x limit policy s [c] facts (handlers x limit policy c facts) := by
  have hselects (u : Session) (k : Candidate) : c.Selects x limit policy u k ↔ k.kind = c.kind ∧
      k.event = policy.parameter? x.forest k.node ∧ c.SelectsMethod x k.fqn k.method k.node := by
    unfold Collector.Selects
    obtain hc | hc := hc <;> rw [hc]
  have hfound : s.Runs (matchesOf x limit c.kind (Query.handlerConditions c) facts) fun r _ => r.2 = facts ∧
      (c.Alternates → ∀ u k, k ∈ r.1.filterMap (handler? x policy c.kind) ↔ c.Selects x limit policy u k) := by
    refine matchesOf_runs_of_pure (P := fun found => c.Alternates → ∀ u k,
      k ∈ found.filterMap (handler? x policy c.kind) ↔ c.Selects x limit policy u k) hidle fun q hq => ?_
    refine ⟨_, Query.run_of_handlerConditions x limit hq, fun halt u k => ?_⟩
    rw [hselects, Query.mem_filterMap_handler? hq halt]
  refine hfound.bind fun ⟨found, facts'⟩ t hlater ⟨hfacts, hmem⟩ => ?_
  dsimp only at hfacts hmem
  subst hfacts
  refine (settleAll_runs _ hlater.idle).imp fun facts'' u hu ⟨l, hl, hsettled⟩ => ⟨l, hl, fun v hv => ⟨?_, ?_⟩⟩
  · intro f hf
    obtain ⟨k, hk, hsettled⟩ := (hsettled v hv).2 f hf
    obtain ⟨m, -, hm⟩ := mem_filterMap.mp hk
    have hfollows := follows_of_handler? (by obtain hc | hc := hc <;> rw [hc] <;> nofun) hm
    exact .inr (.inr ⟨c, mem_singleton_self c, k, hfollows, fun halt => (hmem halt v k).mp hk, hsettled⟩)
  · intro c' hc' halt k hk
    cases mem_singleton.mp hc'
    exact .inl ((hsettled v hv).1 k ((hmem halt v k).mpr hk))

/-- The calls of methods that the collector selects are `sites`; or there are none, and `before` says that they are
omitted. -/
def CallsFound (x : Index) (limit : Nat) (policy : EventPolicy) (s : Session) (c : Collector) (sites : List QueryMatch)
    (before : List Finding) : Prop :=
  (before = [] ∧ (c.Alternates → ∀ u, s.Later u → ∀ k, k ∈ sites.filterMap (dispatch? x policy) ↔
    k.IsCallIn x policy ∧ c.SelectsCall x limit u k.node)) ∨ sites = [] ∧ ∃ f, f.IsOmission ∧ before = [f]

theorem CallsFound.later {t : Session} {sites : List QueryMatch} {before : List Finding}
    (h : CallsFound x limit policy s c sites before) (hlater : s.Later t) :
    CallsFound x limit policy t c sites before := by
  obtain ⟨hbefore, hsites⟩ | homitted := h
  · exact .inl ⟨hbefore, fun halt u hu => hsites halt u (hlater.trans hu)⟩
  · exact .inr homitted

theorem settle_calls_runs {sites functions : List QueryMatch} {before : List Finding} (hc : c.kind = .dispatch)
    (hidle : s.Idle) (hsites : CallsFound x limit policy s c sites before)
    (hfunctions : c.Alternates → ∀ k, k ∈ functions.filterMap (dispatch? x policy) ↔
      k.IsCallIn x policy ∧ c.SelectsFunction x k.node) :
    Explains x limit policy s [c] facts
      (settleAll x limit ((sites ++ functions).filterMap (dispatch? x policy)) (facts.addAll before)) := by
  have hselects (u : Session) (k : Candidate) : c.Selects x limit policy u k ↔
      k.IsCallIn x policy ∧ (c.SelectsCall x limit u k.node ∨ c.SelectsFunction x k.node) := by
    unfold Collector.Selects
    rw [hc]
  refine (settleAll_runs _ hidle).imp fun facts' t hlater ⟨l, hl, hsettled⟩ => ⟨before ++ l, ?_, fun u hu => ?_⟩
  · rw [hl, addAll_append]
  · obtain ⟨hevery, honly⟩ := hsettled u hu
    have hfollows : ∀ k ∈ (sites ++ functions).filterMap (dispatch? x policy), k.Follows x policy := by
      intro k hk
      obtain ⟨m, -, hm⟩ := mem_filterMap.mp hk
      exact follows_of_dispatch? hm
    simp only [filterMap_append, mem_append] at hevery honly hfollows
    obtain ⟨rfl, hsites⟩ | ⟨rfl, f, hf, rfl⟩ := hsites
    · refine ⟨fun f hf => ?_, fun c' hc' halt k hk => ?_⟩
      · obtain ⟨k, hk, hsettled⟩ := honly f hf
        refine .inr (.inr ⟨c, mem_singleton_self c, k, hfollows k hk, fun halt => ?_, hsettled⟩)
        rwa [hselects, and_or_left, ← hsites halt u (hlater.trans hu), ← hfunctions halt]
      · cases mem_singleton.mp hc'
        rw [hselects, and_or_left, ← hsites halt u (hlater.trans hu), ← hfunctions halt] at hk
        exact .inl (hevery k hk)
    · refine ⟨fun g hg => ?_, fun c' hc' halt k hk => ?_⟩
      · obtain rfl | hg := mem_cons.mp hg
        · exact .inr (.inl hf)
        · obtain ⟨k, hk, hsettled⟩ := honly g hg
          refine .inr (.inr ⟨c, mem_singleton_self c, k, hfollows k hk, fun halt => ?_, hsettled⟩)
          obtain hk | hk := hk
          · cases hk
          · obtain ⟨hcall, hfunction⟩ := (hfunctions halt k).mp hk
            exact (hselects u k).mpr ⟨hcall, .inr hfunction⟩
      · cases mem_singleton.mp hc'
        by_cases hfunction : c.SelectsFunction x k.node
        · have hcall := ((hselects u k).mp hk).1
          obtain ⟨g, hg, hsettled⟩ := hevery k (.inr ((hfunctions halt k).mpr ⟨hcall, hfunction⟩))
          exact .inl ⟨g, mem_cons_of_mem _ hg, hsettled⟩
        · exact .inr ⟨hc, hfunction, f, mem_cons_self, hf⟩

/-- A collector of dispatches settles the calls of functions that it selects, and the calls of methods unless these are
omitted. -/
theorem dispatches_runs (hc : c.kind = .dispatch) (hidle : s.Idle) :
    Explains x limit policy s [c] facts (dispatches x limit policy c facts) := by
  refine (matchesOf_runs hidle fun q hq => Query.run_calls_runs hq policy hidle).bind
    fun ⟨sites, facts'⟩ t hlater hfound => ?_
  obtain ⟨before, hfacts, hsites⟩ : ∃ before, facts' = facts.addAll before ∧
      CallsFound x limit policy t c sites before := by
    obtain ⟨hfacts, hsites⟩ | ⟨hsites, e, hfacts⟩ := hfound
    · exact ⟨[], hfacts, .inl ⟨rfl, hsites⟩⟩
    · rw [hc] at hfacts
      exact ⟨[.diagnostic _], hfacts, .inr ⟨hsites, .diagnostic _, ⟨e, rfl⟩, rfl⟩⟩
  subst hfacts
  dsimp only
  split
  · next names hreceivers hmethods =>
    have hfunctions : t.Runs (matchesOf x limit c.kind [.functionName names] (facts.addAll before)) fun r _ =>
        r.2 = facts.addAll before ∧ (c.Alternates → ∀ k, k ∈ r.1.filterMap (dispatch? x policy) ↔
          k.IsCallIn x policy ∧ c.SelectsFunction x k.node) := by
      refine matchesOf_runs_of_pure (P := fun found => c.Alternates → ∀ k, k ∈ found.filterMap (dispatch? x policy) ↔
        k.IsCallIn x policy ∧ c.SelectsFunction x k.node) hlater.idle fun q hq => ?_
      exact Query.run_functions_of_criteria x limit policy hreceivers hmethods hq
    refine hfunctions.bind fun ⟨functions, facts'⟩ u hu ⟨hfacts, hfunctions⟩ => ?_
    dsimp only at hfacts hfunctions ⊢
    subst hfacts
    exact settle_calls_runs hc hu.idle (hsites.later hu) hfunctions
  · next hneither =>
    rw [pure_bind]
    refine settle_calls_runs hc hlater.idle hsites fun _ k => iff_of_false nofun ?_
    rintro ⟨-, hfqn, hnames, -⟩
    have hreceivers : unitPattern? c = none := Collector.alternation?_eq_none.mpr hfqn
    cases hmethods : methodPattern? c with
    | none => exact hnames (Collector.alternation?_eq_none.mp hmethods)
    | some names => exact hneither names hreceivers hmethods

/-- What a collector adds is explained by it. -/
theorem collect_runs (hidle : s.Idle) : Explains x limit policy s [c] facts (collect x limit policy c facts) := by
  unfold collect
  split
  · next hc => exact useCases_runs hc hidle
  · next hc => exact handlers_runs (.inl hc) hidle
  · next hc => exact handlers_runs (.inr hc) hidle
  · next hc => exact dispatches_runs hc hidle

/-- What collectors add is explained by them. -/
theorem collectAll_runs (cs : List Collector) (hidle : s.Idle) :
    Explains x limit policy s cs facts (collectAll x limit policy cs facts) := by
  induction cs generalizing s facts with
  | nil => exact .pure hidle ⟨[], rfl, fun _ _ => ⟨nofun, nofun⟩⟩
  | cons c rest ih =>
    refine (collect_runs hidle).bind fun facts₁ t hlater ⟨l, hl, hfirst⟩ => ?_
    refine (ih hlater.idle).imp fun facts₂ u hu ⟨l', hl', hrest⟩ => ⟨l ++ l', ?_, fun v hv => ?_⟩
    · rw [hl', hl, addAll_append]
    · exact (hfirst v (hu.trans hv)).append (hrest v hv)

end Extract

/-! ## Facts and diagnostics -/

namespace Candidate

/-- There is a fact for the candidate: of its kind, with its names and, if it dispatches, with its event. -/
def IsFact (k : Candidate) (x : Index) (limit : Nat) (s : Session) (facts : FactSet) : Prop :=
  ∃ event, k.Names x limit s event ∧ ∃ fact ∈ facts.toList,
    fact.key = ⟨k.kind, k.fqn, some k.method, if k.kind = .dispatch then some event else none⟩

/-- The diagnostic is about the candidate. -/
def IsNamedBy (k : Candidate) (d : Diagnostic) : Prop :=
  d.kind = k.kind ∧ d.fqn = k.fqn ∧ d.method = some k.method

theorem key_factOf {k : Candidate} (h : k.kind ≠ .useCase) (event : String) (o : Origin) : (factOf k event o).key =
    ⟨k.kind, k.fqn, some k.method, if k.kind = .dispatch then some event else none⟩ := by
  unfold factOf
  cases hk : k.kind with
  | useCase => exact absurd hk h
  | _ => rfl

end Candidate

namespace Extract.Explained

variable {x : Index} {limit : Nat} {policy : EventPolicy} {s : Session} {cs : List Collector} {l : List Finding}

variable (h : Explained x limit policy s cs l)
include h

/-- What is selected has a fact or a diagnostic, or is omitted. -/
theorem accounted {c : Collector} (hc : c ∈ cs) (halt : c.Alternates)
    {k : Candidate} (hk : c.Selects x limit policy s k) : k.IsFact x limit s (empty.addAll l) ∨
      (∃ d ∈ (empty.addAll l).diagnostics, k.IsNamedBy d) ∨
        c.kind = .dispatch ∧ ¬ c.SelectsFunction x k.node ∧
          ∃ d ∈ (empty.addAll l).diagnostics, d.IsOmission := by
  obtain ⟨f, hf, hsettled⟩ | ⟨hkind, hfunction, f, hf, homission⟩ := h.complete c hc halt k hk
  · cases hsettled with
    | fact hnames =>
      refine .inl ⟨_, hnames, ?_⟩
      rw [← Candidate.key_factOf hk.kind_ne_useCase]
      exact (keyed_empty.addAll l).exists_of_has (has_addAll_of_mem hf)
    | diagnostic reason =>
      exact .inr (.inl ⟨_, mem_diagnostics_addAll.mpr (.inr hf), rfl, rfl, rfl⟩)
  · cases f with
    | fact f => exact homission.elim
    | diagnostic d =>
      exact .inr (.inr ⟨hkind, hfunction, d, mem_diagnostics_addAll.mpr (.inr hf), homission⟩)

/-- A fact that is no use case is that of a candidate with its event. -/
theorem exists_of_mem_toList {fact : Fact} (hfact : fact ∈ (empty.addAll l).toList) (hkind : fact.kind ≠ .useCase) :
    ∃ c ∈ cs, ∃ k, k.Follows x policy ∧ (c.Alternates → c.Selects x limit policy s k) ∧
      ∃ event, k.Names x limit s event ∧ fact = factOf k event (origin x.forest k.node) := by
  obtain hfact | hfact := mem_toList_addAll hfact
  · cases hfact
  · obtain huse | homission | ⟨c, hc, k, hfollows, hk, hsettled⟩ := h.sound _ hfact
    · exact absurd huse hkind
    · exact homission.elim
    · cases hsettled with
      | fact hnames => exact ⟨c, hc, k, hfollows, hk, _, hnames, rfl⟩

/-- A diagnostic is about a candidate, unless it says that calls were passed over. -/
theorem exists_of_mem_diagnostics {d : Diagnostic} (hd : d ∈ (empty.addAll l).diagnostics) :
    d.IsOmission ∨ ∃ c ∈ cs, ∃ k, (c.Alternates → c.Selects x limit policy s k) ∧ k.IsNamedBy d := by
  obtain hd | hd := mem_diagnostics_addAll.mp hd
  · cases hd
  · obtain huse | homission | ⟨c, hc, k, -, hk, hsettled⟩ := h.sound _ hd
    · exact huse.elim
    · exact .inl homission
    · cases hsettled with
      | diagnostic reason => exact .inr ⟨c, hc, k, hk, rfl, rfl, rfl⟩

end Extract.Explained

namespace Index

variable {x : Index} {limit : Nat} {policy : EventPolicy} {collectors : CollectorSet} {facts : FactSet}

/-- The session that an extraction leaves. -/
def sessionAfter (x : Index) (limit : Nat) (policy : EventPolicy) (collectors : CollectorSet) : Session :=
  ((collectAll x limit policy collectors.values .empty).run.run {}).2

/-- What an extraction finds is explained by its collectors in the session that it leaves. -/
theorem extract_explained (h : x.extract limit policy collectors = .ok facts) :
    ∃ l, facts = empty.addAll l ∧
      Explained x limit policy (x.sessionAfter limit policy collectors) collectors.values l := by
  have hruns : Session.Runs {} (collectAll x limit policy collectors.values .empty) _ :=
    collectAll_runs _ Session.new_idle
  obtain ⟨l, hl, hexplained⟩ := hruns.2 facts h
  exact ⟨l, hl, hexplained _ (.refl hruns.1.idle)⟩

/-- In a built index the unit of a method that is selected is no interface, since every unit is found under its name. -/
theorem Built.selectsMethod_iff {f : Forest} (h : Built f x) {c : Collector} {fqn method : String} {node : NodeId} :
    c.SelectsMethod x fqn method node ↔
      (∃ u ∈ x.units, u.fqn = fqn ∧ u.kind ≠ .interfaceUnit ∧ node ∈ x.forest.members u.node) ∧
        (∃ m, x.forest.kind node = .method method m ∧ m.visibility = .isPublic ∧ m.isStatic = false) ∧
        Text.sameLetters method "__construct" = false ∧ c.Admits .fqn fqn ∧ c.Admits .methodName method := by
  constructor
  · rintro ⟨⟨u, hu, rfl, hnode⟩, hfind, hcallable, hnew, hfqn, hmethod⟩
    exact ⟨⟨u, hu, rfl, hfind u (h.find?_eq_some hu rfl), hnode⟩, hcallable, hnew, hfqn, hmethod⟩
  · rintro ⟨⟨u, hu, rfl, hkind, hnode⟩, hcallable, hnew, hfqn, hmethod⟩
    refine ⟨⟨u, hu, rfl, hnode⟩, fun v hv => ?_, hcallable, hnew, hfqn, hmethod⟩
    rw [h.find?_eq_some hu rfl, Option.some.injEq] at hv
    rwa [← hv]

/-- Extraction loses no candidate and invents none. Every candidate that a collector selects has a fact or a diagnostic,
except for calls of methods when a diagnostic says that the collector was omitted; and every fact that names an event
and every other diagnostic is about a candidate that a collector selects. In a built index the methods that a collector
selects are those of units that are no interfaces. -/
theorem extract_accounts (h : x.extract limit policy collectors = .ok facts)
    (halt : ∀ c ∈ collectors.values, c.Alternates) :
    let s := x.sessionAfter limit policy collectors
    (∀ c ∈ collectors.values, ∀ k, c.Selects x limit policy s k →
      k.IsFact x limit s facts ∨ (∃ d ∈ facts.diagnostics, k.IsNamedBy d) ∨
        c.kind = .dispatch ∧ ¬ c.SelectsFunction x k.node ∧ ∃ d ∈ facts.diagnostics, d.IsOmission) ∧
    (∀ fact ∈ facts.toList, fact.kind ≠ .useCase → ∃ c ∈ collectors.values, ∃ k, c.Selects x limit policy s k ∧
      ∃ event, k.Names x limit s event ∧ fact = factOf k event (origin x.forest k.node)) ∧
    (∀ d ∈ facts.diagnostics, d.IsOmission ∨
      ∃ c ∈ collectors.values, ∃ k, c.Selects x limit policy s k ∧ k.IsNamedBy d) ∧
    ∀ forests, ofForests forests = .ok x → ∀ (c : Collector) fqn method node, c.SelectsMethod x fqn method node ↔
      (∃ u ∈ x.units, u.fqn = fqn ∧ u.kind ≠ .interfaceUnit ∧ node ∈ x.forest.members u.node) ∧
        (∃ m, x.forest.kind node = .method method m ∧ m.visibility = .isPublic ∧ m.isStatic = false) ∧
        Text.sameLetters method "__construct" = false ∧ c.Admits .fqn fqn ∧ c.Admits .methodName method := by
  obtain ⟨l, rfl, hexplained⟩ := extract_explained h
  refine ⟨fun c hc k hk => ?_, fun fact hfact hkind => ?_, fun d hd => ?_, fun forests hx c fqn method node => ?_⟩
  · exact hexplained.accounted hc (halt c hc) hk
  · obtain ⟨c, hc, k, -, hk, hevent⟩ := hexplained.exists_of_mem_toList hfact hkind
    exact ⟨c, hc, k, hk (halt c hc), hevent⟩
  · obtain homission | ⟨c, hc, k, hk, hnamed⟩ := hexplained.exists_of_mem_diagnostics hd
    · exact .inl homission
    · exact .inr ⟨c, hc, k, hk (halt c hc), hnamed⟩
  · exact (ofForests_built hx).selectsMethod_iff

/-- A method that listens to an event and dispatches another. -/
def shop : List (String × String) :=
  [("shop.php", "<?php\nclass Shop \x7b public function on(Paid $paid) \x7b (new Bus)->send(new Sold); \x7d \x7d\n")]

/-- The pattern of a word. -/
def word (source : String) : Pattern :=
  (Pattern.parse? source).getD default

/-- The collector that admits one word for units and one for methods. -/
def wordCollector (kind : FactKind) (unit method : String) : Collector :=
  ⟨kind, [⟨.fqn, word unit⟩, ⟨.methodName, word method⟩]⟩

/-- Collectors for what the shop listens to and what is sent on a bus. -/
def shopCollectors : CollectorSet :=
  ⟨[(.listener, wordCollector .listener "Shop" "on"), (.dispatch, wordCollector .dispatch "Bus" "send")]⟩

theorem alternates_shopCollectors : ∀ c ∈ shopCollectors.values, c.Alternates := by
  intro c hc
  obtain rfl | hc := mem_cons.mp hc
  · refine Collector.alternates_of_single fun kind => ?_
    cases kind with
    | fqn => exact ⟨word "Shop", _, rfl, rfl⟩
    | methodName => exact ⟨word "on", _, rfl, rfl⟩
  · obtain rfl := mem_singleton.mp hc
    refine Collector.alternates_of_single fun kind => ?_
    cases kind with
    | fqn => exact ⟨word "Bus", _, rfl, rfl⟩
    | methodName => exact ⟨word "send", _, rfl, rfl⟩

/-- What is found out about the shop, all at once because every evaluation reads the program again: the method that
listens, the call that dispatches, the receiver of that call and the facts. -/
theorem shop_evaluated :
    ((∃ u ∈ (ofPrograms shop).units, u.fqn = "Shop" ∧ 10 ∈ (ofPrograms shop).forest.members u.node) ∧
      ((ofPrograms shop).find? "Shop").map ClassUnit.kind = some .classUnit ∧
      (ofPrograms shop).forest.kind 10 = .method "on" {} ∧
      some 1 = EventPolicy.firstPositional.parameter? (ofPrograms shop).forest 10 ∧
      (word "Shop").isMatch "Shop" = true ∧ (word "on").isMatch "on" = true) ∧
    ((ofPrograms shop).forest.kind 7 = .methodCall "send" false ∧
      (ofPrograms shop).forest.firstChild? 7 = some 3 ∧ 7 ∈ (ofPrograms shop).forest.reached ∧
      ((ofPrograms shop).unitFor? 7).map ClassUnit.fqn = some "Shop" ∧
      Query.caller? (ofPrograms shop).forest 7 = some "on" ∧
      some 5 = EventPolicy.firstPositional.argument? (ofPrograms shop).forest 7 ∧
      (word "send").isMatch "send" = true) ∧
    ((ofPrograms shop).answerIn 512 ((ofPrograms shop).sessionAfter 512 .firstPositional shopCollectors)
      3).toOption.map (fun types => types.known.toList.any fun t => (word "Bus").isMatch t.name) = some true ∧
    ((ofPrograms shop).extract 512 .firstPositional shopCollectors).toOption.map
      (fun facts => (facts.diagnostics, facts.toList.map fun fact => (fact.kind, fact.event?))) =
        some ([], [(.listener, some "Paid"), (.dispatch, some "Sold")]) := by
  decide +kernel

theorem selects_listening (s : Session) : (wordCollector .listener "Shop" "on").Selects (ofPrograms shop) 512
    .firstPositional s ⟨.listener, "Shop", "on", 10, some 1⟩ := by
  obtain ⟨⟨hmember, hkind, hmethod, hevent, hunit, hname⟩, -⟩ := shop_evaluated
  refine ⟨rfl, hevent, hmember, fun u hu => ?_, ⟨{}, hmethod, rfl, rfl⟩, rfl, ?_, ?_⟩
  · rw [hu, Option.map_some, Option.some.injEq] at hkind
    rw [hkind]
    nofun
  · exact .inr ⟨_, mem_singleton_self _, hunit⟩
  · exact .inr ⟨_, mem_singleton_self _, hname⟩

theorem selects_sending : (wordCollector .dispatch "Bus" "send").Selects (ofPrograms shop) 512 .firstPositional
    ((ofPrograms shop).sessionAfter 512 .firstPositional shopCollectors) ⟨.dispatch, "Shop", "on", 7, some 5⟩ := by
  obtain ⟨-, ⟨hkind, hfirst, hreached, hunit, hcaller, hevent, hname⟩, hanswer, -⟩ := shop_evaluated
  obtain ⟨types, htypes, hany⟩ := Option.map_eq_some_iff.mp hanswer
  obtain ⟨t, ht, hmatch⟩ := any_eq_true.mp hany
  refine ⟨⟨rfl, hevent, hreached, Option.map_eq_some_iff.mp hunit, hcaller⟩, .inl ?_⟩
  refine ⟨"send", 3, types, .inl ⟨false, hkind⟩, .inr ⟨_, mem_singleton_self _, hname⟩, hfirst, ?_, t, ht, ?_⟩
  · exact eq_ok_of_toOption htypes
  · exact .inl (.inr ⟨_, mem_singleton_self _, hmatch⟩)

theorem extract_shop : ∃ facts, (ofPrograms shop).extract 512 .firstPositional shopCollectors = .ok facts ∧
    facts.diagnostics = [] ∧ (facts.toList.map fun fact => (fact.kind, fact.event?)) =
      [(.listener, some "Paid"), (.dispatch, some "Sold")] := by
  obtain ⟨-, -, -, hextract⟩ := shop_evaluated
  obtain ⟨facts, hfacts, hpair⟩ := Option.map_eq_some_iff.mp hextract
  obtain ⟨hnone, hlist⟩ := Prod.mk.inj hpair
  exact ⟨facts, eq_ok_of_toOption hfacts, hnone, hlist⟩

theorem extract_accounts_shop : ∃ facts,
    (ofPrograms shop).extract 512 .firstPositional shopCollectors = .ok facts ∧ facts.diagnostics = [] ∧
      let s := (ofPrograms shop).sessionAfter 512 .firstPositional shopCollectors
      (⟨.listener, "Shop", "on", 10, some 1⟩ : Candidate).IsFact (ofPrograms shop) 512 s facts ∧
        (⟨.dispatch, "Shop", "on", 7, some 5⟩ : Candidate).IsFact (ofPrograms shop) 512 s facts := by
  obtain ⟨facts, hfacts, hnone, -⟩ := extract_shop
  obtain ⟨haccounts, -⟩ := extract_accounts hfacts alternates_shopCollectors
  simp only [hnone, List.not_mem_nil, false_and, exists_false, and_false, or_false] at haccounts
  refine ⟨facts, hfacts, hnone, ?_, ?_⟩
  · exact haccounts _ List.mem_cons_self _ (selects_listening _)
  · exact haccounts _ (List.mem_cons_of_mem _ List.mem_cons_self) _ selects_sending

/-- An index in which an interface has the name of a class before it. -/
def eclipsed : Index where
  units := [{ fqn := "A", kind := .classUnit, node := 2, file := "a.php", methods := ["on"] },
    { fqn := "A", kind := .interfaceUnit, node := 4, file := "b.php" }]
  forest := {
    nodes := #[{ kind := .block, span := ⟨36, 38, 2⟩, parent := some 1 },
      { kind := .method "on" {}, span := ⟨16, 38, 2⟩, children := [0], parent := some 2 },
      { kind := .classDecl "A" {}, span := ⟨6, 40, 2⟩, children := [1], parent := some 3, resolvedName := some "A" },
      { kind := .file, span := ⟨0, 41, 1⟩, children := [2] },
      { kind := .interfaceDecl "A", span := ⟨6, 20, 2⟩, parent := some 5, resolvedName := some "A" },
      { kind := .file, span := ⟨0, 21, 1⟩, children := [4] }]
    files := [{ path := "a.php", contentHash := "00", root := 3 }, { path := "b.php", contentHash := "01", root := 5 }] }

/-- A public method of a class that is no interface, both of whose names are admitted, leaves neither fact nor
diagnostic where a later unit of the same name is an interface. -/
theorem extract_loses_eclipsed :
    (∃ u ∈ eclipsed.units, u.fqn = "A" ∧ u.kind = .classUnit ∧ 1 ∈ eclipsed.forest.members u.node) ∧
      eclipsed.forest.kind 1 = .method "on" {} ∧ (word "A").isMatch "A" = true ∧ (word "on").isMatch "on" = true ∧
      (eclipsed.extract 512 .firstPositional ⟨[(.listener, wordCollector .listener "A" "on")]⟩).toOption.map
        (fun facts => (facts.toList, facts.diagnostics)) = some ([], []) := by
  decide +kernel

end Index

end EventAtlas
