import EventAtlas.Proofs.Inference.BoundStrategies
import EventAtlas.Proofs.Inference.Finality

/-!
# Declared types point at the class they name

A session holds types in its memory and in the variables of the sweeps under way. If all of these are bound, every act
leaves it so (`Session.Binds.perform`), a sweep changes variables only in ways that keep them bound and puts off only
steps that hold bound types (`Sweeping.steps_gives`), and whatever is asked in the session gets bound types
(`Inquiry.resolveWithin_delivers`). So after any run of resolutions the answers point only at declarations that have the
name of the type (`Index.answerAfter_points_at_named`).
-/

namespace EventAtlas

open List Index

variable {x : Index}

/-! ## Variables -/

/-- Whatever is known about a variable is bound. -/
structure Index.BindsVariables (x : Index) (v : Variables) : Prop where
  bindings : v.bindings.All x.BindsAll
  annotations : v.annotations.All x.BindsAll
  pending : ∀ s, v.pending = some s → x.BindsAll s

namespace Index.BindsVariables

variable {v : Variables} {name : String} {s : TypeSet}

variable (h : x.BindsVariables v)
include h

theorem bind (name : String) (hs : x.BindsAll s) : x.BindsVariables (v.bind name s) :=
  ⟨h.bindings.insert name hs, h.annotations, h.pending⟩

theorem annotate (name : String) (hs : x.BindsAll s) : x.BindsVariables (v.annotate name s) :=
  ⟨h.bindings, h.annotations.insert name hs, h.pending⟩

theorem unbind (name : String) : x.BindsVariables (v.unbind name) :=
  ⟨h.bindings.erase name, h.annotations, h.pending⟩

theorem get? (hs : v.get? name = some s) : x.BindsAll s := by
  obtain hs | ⟨-, hs⟩ := Option.or_eq_some_iff.mp hs
  · exact h.annotations.find? hs
  · exact h.bindings.find? hs

theorem known (name : String) : x.BindsAll (v.known name) := by
  unfold Variables.known
  cases hs : (v.get? name).filter fun t => !t.isEmpty with
  | none => exact bindsAll_unknown x _
  | some s => exact h.get? (Option.filter_eq_some_iff.mp hs).1

theorem append (name : String) (hs : x.BindsAll s) : x.BindsVariables (v.append name s) := by
  have hnew {elements : List Ty} (helements : ∀ t ∈ elements, x.Binds t) :
      x.BindsAll (if elements.isEmpty then .ofName "array" else .ofList (elements.map Ty.arrayOf)) := by
    split
    · exact bindsAll_ofName x _
    · exact bindsAll_arraysOf helements
  have happended := hnew (hs.filter fun t => !t.isUnknown)
  refine h.bind name ?_
  split
  · next existing hexisting => exact happended.union (BindsAll.known (h.bindings.find? hexisting))
  · exact happended

theorem restore {saved : String × Option TypeSet}
    (hsaved : ∀ s, saved.2 = some s → x.BindsAll s) : x.BindsVariables (v.restore saved) := by
  unfold Variables.restore
  split
  · next types htypes => exact h.bind _ (hsaved types htypes)
  · exact h.unbind _

theorem foldl_restore {saved : List (String × Option TypeSet)}
    (hsaved : ∀ e ∈ saved, ∀ s, e.2 = some s → x.BindsAll s) : x.BindsVariables (saved.foldl Variables.restore v) :=
  foldlRecOn saved _ h fun _ hv e he => hv.restore (hsaved e he)

theorem bindUnlessThis (name : String) (hs : x.BindsAll s) :
    x.BindsVariables (if name == "this" then v else v.bind name s) := by
  split
  · exact h
  · exact h.bind name hs

theorem assign (f : Forest) (n : Nat) (target : NodeId) (hs : x.BindsAll s) :
    x.BindsVariables (Variables.assign f n target s v) := by
  induction n generalizing target s v with
  | zero => exact h
  | succ n ih =>
    unfold Variables.assign
    split
    case h_1 | h_2 | h_3 => exact h.bindUnlessThis _ hs
    case h_4 =>
      split
      · split
        · exact h.append _ hs
        · exact h
      · exact h
    case h_5 | h_6 =>
      -- The targets in a list are assigned to one by one.
      refine List.foldlRecOn (motive := x.BindsVariables) _ _ h fun v hv c _ => ?_
      split
      case h_4 => exact hv
      all_goals exact ih hv c hs.elements
    case h_7 => exact h

theorem note (hx : x.BindsGiven) (node : NodeId) (text : String) : x.BindsVariables (v.note x node text) := by
  have htag {tag : DocTag} (h : tag ∈ (DocBlock.parse text).vars) : x.BindsAll (x.docTypes node tag.type) :=
    hx.doc node tag.type (DocBlock.allNames_of_mem_tags (mem_filter.mp h).1)
  unfold Variables.note
  generalize DocBlock.parse text = block at htag
  have hnamed : x.BindsVariables (block.namedVars.foldl (fun v t => v.annotate t.1 (x.docTypes node t.2)) v) := by
    refine List.foldlRecOn (motive := x.BindsVariables) _ _ h fun v hv t ht => ?_
    obtain ⟨tag, hmem, ht⟩ := mem_filterMap.mp ht
    obtain ⟨name, -, rfl⟩ := Option.map_eq_some_iff.mp ht
    exact hv.annotate name (htag hmem)
  dsimp only
  split
  · next tag hfind =>
    refine ⟨hnamed.bindings, hnamed.annotations, ?_⟩
    rintro _ ⟨⟩
    exact htag (mem_of_find?_eq_some hfind)
  · exact hnamed

end Index.BindsVariables

/-! ## Sweeps -/

/-- What a sweep asks to be changed keeps bound variables bound. -/
def SweepQuestion.KeepsBound (x : Index) : SweepQuestion → Prop
  | .change g => ∀ v, x.BindsVariables v → x.BindsVariables (g v)
  | _ => True

/-- The answer to a question of a sweep is bound, if it consists of types. -/
def SweepQuestion.Bound (x : Index) : (q : SweepQuestion) → q.Answer → Prop
  | .types _, s => x.BindsAll s
  | .current, v => ∀ w, v = some w → x.BindsVariables w
  | .isResolving _, _ | .change _, _ | .read .., _ => True

/-- The types that a step holds are bound. -/
def SweepStep.Bound (x : Index) : SweepStep → Prop
  | .bind _ (.types s) => x.BindsAll s
  | .restore saved => ∀ e ∈ saved, ∀ s, e.2 = some s → x.BindsAll s
  | .bind _ (.node _) | .bind _ (.elementsOf _) | .visit _ => True

namespace Sweeping

variable {α : Type} {f : Forest}

/-- If the answers are bound, the sweep keeps variables bound and ends with a result as `post` says. -/
abbrev Gives (x : Index) (post : α → Prop) (d : Sweeping α) : Prop :=
  Dialogue.Gives (SweepQuestion.KeepsBound x) (SweepQuestion.Bound x) post d

/-- All steps hold bound types. -/
abbrev Bound (x : Index) (todo : List SweepStep) : Prop :=
  ∀ s ∈ todo, s.Bound x

theorem bound_map_visit (nodes : List NodeId) : Bound x (nodes.map .visit) := by
  intro s hs
  obtain ⟨n, -, rfl⟩ := mem_map.mp hs
  trivial

theorem bound_map_bind (nodes : List NodeId) (source : NodeId → BindSource) (hsource : ∀ n s, source n ≠ .types s) :
    Bound x (nodes.map fun n => .bind n (source n)) := by
  intro s hs
  obtain ⟨n, -, rfl⟩ := mem_map.mp hs
  cases h : source n with
  | types s => exact absurd h (hsource n s)
  | _ => trivial

theorem takePending_gives (target : NodeId) :
    (takePending f target).Gives x fun pending => ∀ s, pending = some s → x.BindsAll s := by
  unfold takePending
  split
  · refine ⟨trivial, fun v hv => ⟨fun v h => ⟨h.bindings, h.annotations, nofun⟩, fun _ _ s hs => ?_⟩⟩
    obtain ⟨w, hw, hs⟩ := Option.bind_eq_some_iff.mp hs
    exact (hv w hw).pending s hs
  · exact nofun

theorem bound_assignSteps (target value : NodeId) {pending : Option TypeSet}
    (hpending : ∀ s, pending = some s → x.BindsAll s) : Bound x (assignSteps f target value pending) := by
  have hbind : SweepStep.Bound x (.bind target ((pending.map BindSource.types).getD (.node value))) := by
    cases pending with
    | none => trivial
    | some s => exact hpending s rfl
  have hpair : Bound x [.visit value, .bind target ((pending.map BindSource.types).getD (.node value))] :=
    forall_mem_cons.mpr ⟨trivial, forall_mem_singleton.mpr hbind⟩
  unfold assignSteps
  dsimp only
  split
  · exact hpair
  · exact hpair
  · exact hpair
  · rw [cons_append, Bound, forall_mem_cons, forall_mem_append, forall_mem_singleton]
    exact ⟨trivial, bound_map_visit _, hbind⟩
  · exact forall_mem_cons.mpr ⟨trivial, bound_map_visit _⟩

theorem bound_foreachSteps (hasKey : Bool) (children : List NodeId) : Bound x (foreachSteps f hasKey children) := by
  cases children with
  | nil => exact nofun
  | cons source rest =>
    unfold foreachSteps
    dsimp only
    rw [cons_append, cons_append, Bound, forall_mem_cons, forall_mem_append, forall_mem_append]
    refine ⟨trivial, ⟨bound_map_bind _ .node nofun, bound_map_bind _ _ fun n s => ?_⟩, bound_map_visit _⟩
    split <;> exact nofun

theorem bound_catchSteps (children : List NodeId) : Bound x (children.filterMap (catchStep? f)) := by
  intro s hs
  obtain ⟨c, -, hc⟩ := mem_filterMap.mp hs
  unfold catchStep? at hc
  split at hc
  · exact Option.some.inj hc ▸ trivial
  · cases hc
  · exact Option.some.inj hc ▸ trivial

theorem bound_shadowed (params : List NodeId) {v : Option Variables} (hv : ∀ w, v = some w → x.BindsVariables w) :
    SweepStep.Bound x (.restore (shadowed f params v)) := by
  intro e he s hs
  obtain ⟨name, -, rfl⟩ := mem_map.mp he
  obtain ⟨w, hw, hs⟩ := Option.bind_eq_some_iff.mp hs
  exact (hv w hw).bindings.find? hs

/-- A visit keeps variables bound, and so do the steps that come of it. -/
theorem visit_gives (hx : x.BindsGiven) (node : NodeId) : (visit x node).Gives x (Bound x) := by
  unfold visit
  dsimp only
  cases hk : x.forest.kind node with
  | classDecl | interfaceDecl | traitDecl | method | function => exact nofun
  | var name =>
    dsimp only
    split
    · exact ⟨trivial, fun _ _ => nofun⟩
    · exact nofun
  | assign byRef =>
    dsimp only
    split
    · exact (takePending_gives _).bind fun pending hpending => bound_assignSteps _ _ hpending
    · exact bound_map_visit _
  | compoundAssign op =>
    exact forall_mem_append.mpr ⟨bound_map_visit _, bound_map_bind _ (fun _ => .node node) nofun⟩
  | foreach hasKey => exact bound_foreachSteps hasKey _
  | catchClause => exact bound_catchSteps _
  | staticVariable name =>
    exact forall_mem_append.mpr ⟨bound_map_visit _, forall_mem_singleton.mpr trivial⟩
  | closure isStatic => exact bound_map_visit _
  | arrowFunction =>
    refine ⟨trivial, fun v hv => forall_mem_append.mpr ⟨forall_mem_append.mpr ⟨?_, bound_map_visit _⟩, ?_⟩⟩
    · exact bound_map_bind _ .node nofun
    · exact forall_mem_singleton.mpr (bound_shadowed _ hv)
  | docComment text => exact ⟨fun v hv => hv.note hx node text, fun _ _ => nofun⟩
  | _ => exact bound_map_visit _

theorem sourceTypes?_gives {target : NodeId} {source : BindSource} (hsource : SweepStep.Bound x (.bind target source)) :
    (sourceTypes? source).Gives x fun found => ∀ s, found = some s → x.BindsAll s := by
  have hsome {s : TypeSet} (hs : x.BindsAll s) : ∀ s', some s = some s' → x.BindsAll s' :=
    fun _ heq => Option.some.inj heq ▸ hs
  cases source with
  | node id =>
    refine ⟨trivial, fun busy _ => ?_⟩
    cases busy with
    | true => exact nofun
    | false => exact ⟨trivial, fun s hs => hsome hs⟩
  | elementsOf id =>
    refine ⟨trivial, fun busy _ => ?_⟩
    cases busy with
    | true => exact hsome (BindsAll.elements (bindsAll_empty x))
    | false => exact ⟨trivial, fun s hs => hsome (BindsAll.elements hs)⟩
  | types types => exact hsome hsource

theorem step_gives (hx : x.BindsGiven) {s : SweepStep} (hs : s.Bound x) : (step x s).Gives x (Bound x) := by
  cases s with
  | visit id => exact visit_gives hx id
  | bind target source =>
    refine (sourceTypes?_gives hs).bind fun found hfound => ?_
    cases found with
    | none => exact nofun
    | some types => exact ⟨fun v hv => hv.assign _ _ target (hfound types rfl), fun _ _ => nofun⟩
  | restore saved => exact ⟨fun v hv => hv.foldl_restore hs, fun _ _ => nofun⟩

theorem steps_gives (hx : x.BindsGiven) (n : Nat) {todo : List SweepStep} (htodo : Bound x todo) :
    (steps x n todo).Gives x fun _ => True := by
  induction n generalizing todo with
  | zero => trivial
  | succ n ih =>
    cases todo with
    | nil => trivial
    | cons s rest =>
      obtain ⟨hs, hrest⟩ := forall_mem_cons.mp htodo
      exact (step_gives hx hs).bind fun next hnext => ih (forall_mem_append.mpr ⟨hnext, hrest⟩)

theorem bound_firstSteps (scope : NodeId) : Bound x (firstSteps f scope) := by
  unfold firstSteps
  split
  · exact bound_map_visit _
  · refine forall_mem_append.mpr ⟨forall_mem_append.mpr ⟨?_, ?_⟩, bound_map_visit _⟩
    · exact bound_map_bind _ .node nofun
    · exact bound_map_bind _ .node nofun

end Sweeping

/-! ## Sessions -/

/-- The act leaves bound types behind, if it leaves any. -/
def Act.KeepsBound (x : Index) : Act → Prop
  | .leave _ (some types) => x.BindsAll types
  | .changeVariables g => ∀ v, x.BindsVariables v → x.BindsVariables (g v)
  | _ => True

/-- What the session remembers and what its sweeps know is bound. -/
structure Session.Binds (x : Index) (s : Session) : Prop where
  memo : s.memo.All x.BindsAll
  frames : ∀ w ∈ s.sweeps, x.BindsVariables w.frame

namespace Session.Binds

variable {s : Session}

theorem new (x : Index) : Session.Binds x {} :=
  ⟨nofun, nofun⟩

variable (h : s.Binds x)
include h

theorem frame? {v : Variables} (hv : s.frame? = some v) : x.BindsVariables v := by
  obtain ⟨w, hw, rfl⟩ := Option.map_eq_some_iff.mp hv
  exact h.frames w (mem_of_mem_head? hw)

theorem readBehind (node : NodeId) : x.BindsAll (s.readBehind node) := by
  unfold Session.readBehind
  cases hfound : s.memo.find? node with
  | none => exact bindsAll_empty x
  | some types => exact h.memo.find? hfound

theorem readAhead {scope : NodeId} {name : String} {found : TypeSet}
    (hfound : (s.readAhead scope name).1 = some found) : x.BindsAll found := by
  unfold Session.readAhead at hfound
  split at hfound
  · next w hw =>
    obtain rfl := Option.some.inj hfound
    have hframe := h.frames w (mem_of_find?_eq_some hw)
    cases hget : w.frame.get? name with
    | none => exact bindsAll_empty x
    | some types => exact hframe.get? hget
  · cases hfound

theorem rememberRead (node : NodeId) (name : String) : (s.rememberRead node name).Binds x := by
  have hknown : x.BindsAll ((s.frame?.map (·.known name)).getD (.unknown "Variable")) := by
    cases hv : s.frame? with
    | none => exact bindsAll_unknown x _
    | some v => exact (h.frame? hv).known name
  unfold Session.rememberRead rememberFirst
  split
  · exact h
  · exact ⟨h.memo.insert node hknown, h.frames⟩

theorem leave (node : NodeId) {types : Option TypeSet} (htypes : ∀ t, types = some t → x.BindsAll t) :
    (s.leave node types).Binds x := by
  constructor
  · obtain hmemo | ⟨t, ht, hmemo⟩ := s.memo_leave node types
    · exact hmemo ▸ h.memo
    · exact hmemo ▸ h.memo.insert node (htypes t ht)
  · rw [leave_eq]
    exact h.frames

theorem beginSweep (scope : NodeId) : (s.beginSweep scope).2.Binds x := by
  unfold Session.beginSweep
  split
  · exact h
  · exact ⟨h.memo, forall_mem_cons.mpr ⟨⟨nofun, nofun, nofun⟩, h.frames⟩⟩

theorem modifyVariables {g : Variables → Variables}
    (hg : ∀ v, x.BindsVariables v → x.BindsVariables (g v)) : (s.modifyVariables g).Binds x := by
  refine ⟨h.memo, ?_⟩
  have hframes := h.frames
  unfold Session.modifyVariables
  cases hs : s.sweeps with
  | nil => exact nofun
  | cons w rest =>
    rw [hs, forall_mem_cons] at hframes
    obtain ⟨hbindings, hannotations, hpending⟩ := hg w.frame hframes.1
    exact forall_mem_cons.mpr ⟨⟨hbindings, hannotations, hpending⟩, hframes.2⟩

/-- Every act that leaves bound types behind leaves a bound session bound. -/
theorem perform {a : Act} (ha : a.KeepsBound x) : (a.perform s).2.Binds x := by
  cases a with
  | leave node types =>
    refine h.leave node fun t ht => ?_
    rw [ht] at ha
    exact ha
  | readAhead scope name =>
    simp only [Act.perform, Session.readAhead]
    split <;> exact ⟨h.memo, h.frames⟩
  | beginSweep scope => exact h.beginSweep scope
  | endSweep scope finished => exact ⟨h.memo, fun w hw => h.frames w (mem_of_mem_drop hw)⟩
  | changeVariables g => exact h.modifyVariables ha
  | rememberRead node name => exact h.rememberRead node name
  | collect f c =>
    obtain ⟨collected, injected, dynamic, hcollect⟩ := s.collect_eq f c
    simp only [Act.perform, hcollect]
    exact ⟨h.memo, h.frames⟩
  | _ => exact ⟨h.memo, h.frames⟩

end Session.Binds

/-! ## Answers -/

namespace Inquiry

variable {α β : Type} {types : NodeId → Inquiry TypeSet}

/-- In a bound session the inquiry leaves the session bound, and its result, if it has one, is as `post` says. -/
def Delivers (x : Index) (post : α → Prop) (i : Inquiry α) : Prop :=
  ∀ s : Session, s.Binds x →
    i.run.Meets (fun _ _ => True) (fun r s => s.Binds x ∧ ∀ a, r = .ok a → post a) s

theorem delivers_pure {post : α → Prop} {a : α} (ha : post a) : Delivers x post (pure a) :=
  fun _ hs => ⟨hs, fun _ heq => Except.ok.inj heq ▸ ha⟩

theorem delivers_act {a : Act} {post : a.Answer → Prop} (ha : a.KeepsBound x)
    (hpost : ∀ s : Session, s.Binds x → post (a.perform s).1) : Delivers x post (act a) :=
  fun s hs => ⟨trivial, hs.perform ha, fun _ heq => Except.ok.inj heq ▸ hpost s hs⟩

theorem Delivers.bind {post : α → Prop} {post' : β → Prop} {i : Inquiry α} {g : α → Inquiry β} (hi : Delivers x post i)
    (hg : ∀ a, post a → Delivers x post' (g a)) : Delivers x post' (i >>= g) := by
  intro s hs
  rw [Dialogue.Meets, watched_bind]
  refine (hi s hs).mono fun r s _ hr => ?_
  cases r with
  | ok a => exact hg a (hr.2 a rfl) s hr.1
  | error e => exact ⟨hr.1, by rintro _ ⟨⟩⟩

/-- If what is asked is answered rightly, the inquiry delivers what the dialogue gives. -/
theorem Delivers.interpret {Q : Type} [Questions Q] {allowed : Q → Prop} {right : (q : Q) → Questions.Answer q → Prop}
    {answer : (q : Q) → Inquiry (Questions.Answer q)} (hanswer : ∀ q, allowed q → Delivers x (right q) (answer q))
    {post : α → Prop} {d : Dialogue Q α} (hd : d.Gives allowed right post) : Delivers x post (d.interpret answer) := by
  induction d with
  | done a => exact delivers_pure hd
  | ask q next ih => exact (hanswer q hd.1).bind fun a ha => ih a (hd.2 a ha)

section Answers

variable (htypes : ∀ n, Delivers x x.BindsAll (types n))
include htypes

theorem answerSweep_delivers (q : SweepQuestion) (hq : q.KeepsBound x) :
    Delivers x (q.Bound x) (answerSweep types q) := by
  cases q with
  | types n => exact htypes n
  | isResolving n => exact delivers_act trivial fun _ _ => trivial
  | current => exact delivers_act trivial fun s hs v hv => hs.frame? hv
  | change g => exact delivers_act hq fun _ _ => trivial
  | read n name => exact delivers_act trivial fun _ _ => trivial

variable (hx : x.BindsGiven)
include hx

theorem sweep_delivers (scope : NodeId) : Delivers x (fun _ => True) (sweep x types scope) := by
  have hscope : Delivers x (fun _ => True) ((Sweeping.scope x scope).interpret (answerSweep types)) :=
    .interpret (answerSweep_delivers htypes) (Sweeping.steps_gives hx _ (Sweeping.bound_firstSteps scope))
  intro s hs
  refine sweep_watched trivial (fun _ => ⟨hs.beginSweep scope, fun _ _ => trivial⟩) fun _ => ?_
  refine (hscope _ (hs.beginSweep scope)).mono fun r s _ hr => ⟨trivial, ?_, fun _ _ => trivial⟩
  exact hr.1.perform (a := .endSweep scope r.isOk) trivial

theorem readVariable_delivers (node scope : NodeId) (name : String) :
    Delivers x x.BindsAll (readVariable x types node scope name) := by
  have hahead : Delivers x (fun found => ∀ t, found = some t → x.BindsAll t) (act (.readAhead scope name)) :=
    delivers_act trivial fun _ hs _ ht => hs.readAhead ht
  refine hahead.bind fun found hfound => ?_
  cases found with
  | some found => exact delivers_pure (hfound found rfl)
  | none => exact (sweep_delivers htypes hx scope).bind fun _ _ => delivers_act trivial fun _ hs => hs.readBehind node

theorem answer_delivers (q : NodeQuestion) : Delivers x (q.Bound x) (answer x types q) := by
  cases q with
  | types n => exact htypes n
  | isResolving n => exact delivers_act trivial fun _ _ => trivial
  | read n scope name => exact readVariable_delivers htypes hx n scope name
  | collect c => exact delivers_act trivial fun _ _ => trivial
  | writesTo decl => exact delivers_act trivial fun _ _ => trivial
  | looseWrites owner name => exact delivers_act trivial fun _ _ => trivial

end Answers

theorem bindsAll_orUnknown (kind : NodeKind) {found : TypeSet} (h : x.BindsAll found) :
    x.BindsAll (orUnknown kind found) := by
  unfold orUnknown
  split
  · exact bindsAll_unknown x _
  · exact h

theorem framed_delivers {node : NodeId} {resolve : Inquiry TypeSet} (h : Delivers x x.BindsAll resolve) :
    Delivers x x.BindsAll (framed x.forest node resolve) := by
  intro s hs
  refine framed_watched.mpr ⟨trivial, ?_⟩
  refine (h _ (hs.perform (a := .enter node) trivial)).mono fun r s _ hr => ⟨trivial, ?_⟩
  cases r with
  | error e => exact ⟨hr.1.leave node nofun, nofun⟩
  | ok found =>
    have hfound := bindsAll_orUnknown (x.forest.kind node) (hr.2 found rfl)
    exact ⟨hr.1.leave node fun _ heq => Option.some.inj heq ▸ hfound, fun _ heq => Except.ok.inj heq ▸ hfound⟩

theorem remembered_delivers {node : NodeId} {resolve : Inquiry TypeSet} (h : Delivers x x.BindsAll resolve) :
    Delivers x x.BindsAll (remembered x.forest node resolve) := by
  intro s hs
  refine remembered_watched trivial trivial trivial (fun found hfound => ⟨hs, fun _ heq => ?_⟩)
    (fun _ _ _ => ⟨hs, fun _ heq => ?_⟩) (fun _ _ _ => ⟨hs, nofun⟩) fun _ _ => h s hs
  · exact Except.ok.inj heq ▸ hs.memo.find? hfound
  · exact Except.ok.inj heq ▸ bindsAll_empty x

/-- In a bound session the types of a node are bound, however much room there is. -/
theorem resolveWithin_delivers (hx : x.BindsGiven) (limit room : Nat) (node : NodeId) :
    Delivers x x.BindsAll (resolveWithin x limit room node) := by
  induction room generalizing node with
  | zero => exact remembered_delivers fun s hs => ⟨hs, nofun⟩
  | succ room ih =>
    refine remembered_delivers (framed_delivers ?_)
    exact .interpret (fun q _ => answer_delivers ih hx q) (Strategy.dispatch_gives hx node)

end Inquiry

namespace Index

open Inquiry Forest

theorem resolveAll_binds (hx : x.BindsGiven) (limit : Nat) (nodes : List NodeId) :
    (x.resolveAll limit nodes {}).Binds x := by
  refine resolveAll_invariant (Session.Binds x) (fun s node hs => ?_) nodes (.new x)
  exact (resolveWithin_delivers hx limit limit node s hs).atEnd.1

theorem answerAfter_binds (hx : x.BindsGiven) {limit : Nat} {before : List NodeId} {node : NodeId} {types : TypeSet}
    (h : x.answerAfter limit before node = .ok types) : x.BindsAll types :=
  ((Dialogue.meets_iff _ _).mp
    (resolveWithin_delivers hx limit limit node _ (resolveAll_binds hx limit before))).2.2 types h

theorem declaresPlainName_of_ofForests {forests : List Forest} (hx : ofForests forests = .ok x)
    (h : ∀ f ∈ forests, ∀ id, (f.kind id).declaresPlainName = true) (id : NodeId) :
    (x.forest.kind id).declaresPlainName = true := by
  rw [(ofForests_built hx).tree.kind]
  revert id
  refine List.foldlRecOn (motive := fun g : Forest => ∀ id, (g.kind id).declaresPlainName = true) forests absorb ?_ ?_
  · intro id
    rw [kind, node_of_size_le (Nat.zero_le id)]
    rfl
  · intro g hg f hf id
    rw [kind, node_absorb]
    split
    · exact hg id
    · exact h f hf (id - g.size)

/-- Whatever was resolved before, a type in an answer, or a part of one, points at a declaration only if the
declaration is a class-like and the type has its name, up to ASCII case. Class-likes are named by identifiers and
namespaces by characters of names; and either no qualified name starts with a blank, or names of classes in expressions
stand only where they are looked up. -/
theorem answerAfter_points_at_named {forests : List Forest} (h : ofForests forests = .ok x)
    (hunlinked : ∀ f ∈ forests, f.Unlinked) (hnames : ∀ f ∈ forests, ∀ id, (f.kind id).declaresPlainName = true)
    (hplaces : (∀ u ∈ x.units, Text.startsSolid u.fqn = true) ∨
      ∀ id text, x.forest.kind id = .name text .classRef → x.forest.IsClassPlace id)
    {limit : Nat} {before : List NodeId} {node : NodeId} {types : TypeSet}
    (hanswer : x.answerAfter limit before node = .ok types) :
    ∀ t ∈ types.toList, ∀ u : Ty, u.Part t → ∀ d, u.declaration = some d →
      (x.forest.kind d).isClassLike = true ∧
        ∃ r, x.forest.resolvedName d = some r ∧ Text.sameLetters u.baseName (Typing.normalize r) = true := by
  have hgiven := (ofForests_built h).bindsGiven (joined_unlinked hunlinked) (declaresPlainName_of_ofForests h hnames)
    hplaces
  intro t ht
  exact (answerAfter_binds hgiven hanswer).binds ht

/-- Boxes that return themselves, crates that are boxes, and a shelf of boxes of crates. -/
def shelf : List (String × String) :=
  [("Box.php", "<?php\nnamespace App;\nclass Box \x7b\n" ++
      "/** @return static */\nfunction self() \x7b return $this; \x7d\n\x7d\n"),
    ("Crate.php", "<?php\nnamespace App;\nclass Crate extends BOX \x7b\x7d\n"),
    ("Shelf.php", "<?php\nclass Shelf \x7b\n/** @var \\App\\box<App\\CRATE[]> */\npublic $crates;\n" ++
      "function f() \x7b return (new App\\crate)->self(); \x7d\n\x7d\n")]

theorem declaresPlainName_of_mem_ids {f : Forest} (h : ∀ id ∈ f.ids, (f.kind id).declaresPlainName = true)
    (id : NodeId) : (f.kind id).declaresPlainName = true := by
  by_cases hid : id < f.size
  · exact h id (mem_range.mpr hid)
  · rw [kind, node_of_size_le (Nat.le_of_not_lt hid)]
    rfl

theorem answerAfter_points_at_shelf : ∃ types, (ofPrograms shelf).answerAfter 64 [16] 13 = .ok types ∧
    types.toList.map (fun t => (t.baseName, t.declaration)) = [("App\\box", some 5)] ∧
    types.toList.map (fun t => (t.element.bind Ty.element).map fun e => (e.baseName, e.declaration)) =
      [some ("App\\CRATE", some 9)] ∧
    ∀ t ∈ types.toList, ∀ u : Ty, u.Part t → ∀ d, u.declaration = some d →
      ((ofPrograms shelf).forest.kind d).isClassLike = true ∧ ∃ r, (ofPrograms shelf).forest.resolvedName d = some r ∧
        Text.sameLetters u.baseName (Typing.normalize r) = true := by
  have hfacts : let x := ofPrograms shelf
      (∀ f ∈ forestsOf (sourcesOf shelf), ∀ id ∈ f.ids, (f.kind id).declaresPlainName = true) ∧
      (∀ u ∈ x.units, Text.startsSolid u.fqn = true) ∧
      (x.answerAfter 64 [16] 13).toOption.map (fun types =>
        (types.toList.map fun t => (t.baseName, t.declaration),
          types.toList.map fun t => (t.element.bind Ty.element).map fun e => (e.baseName, e.declaration))) =
        some ([("App\\box", some 5)], [some ("App\\CRATE", some 9)]) := by
    decide +kernel
  obtain ⟨hnames, hsolid, hanswer⟩ := hfacts
  cases hr : (ofPrograms shelf).answerAfter 64 [16] 13 with
  | error e =>
    rw [hr] at hanswer
    cases hanswer
  | ok types =>
    rw [hr] at hanswer
    obtain ⟨houter, hinner⟩ := Prod.mk.inj (Option.some.inj hanswer)
    refine ⟨types, rfl, houter, hinner, ?_⟩
    exact answerAfter_points_at_named (ofForests_ofPrograms shelf) unlinked_of_mem_forestsOf
      (fun f hf => declaresPlainName_of_mem_ids (hnames f hf)) (.inl hsolid) hr

end Index

end EventAtlas
