import EventAtlas.Proofs.Inference.Demands

/-!
# Parameters of arrow functions

A sweep in a run is a machine. Its state is the steps that are left and the session, and `Sweeping.move` takes the first
of the steps, which may put others in its place. These are worked off before the steps behind it are come to
(`Sweeping.reaches_append`), so a sweep comes to what is behind an arrow function only after the last step for the arrow
function, which gives its parameters back what they were bound to.
-/

namespace EventAtlas

open List Relation

/-! ## Giving back -/

namespace Variables

theorem binding?_restore (v : Variables) (saved : String × Option TypeSet) (name : String) :
    (v.restore saved).binding? name = if name = saved.1 then saved.2 else v.binding? name := by
  obtain ⟨key, types⟩ := saved
  cases types with
  | some types =>
    change (v.bindings.insert key types).find? name = _
    split
    · next h => rw [h, Sorted.find?_insert_self]
    · next h => rw [Sorted.find?_insert_of_ne _ _ h, binding?]
  | none =>
    change (v.bindings.erase key).find? name = _
    split
    · next h => rw [h, Sorted.find?_erase_self]
    · next h => rw [Sorted.find?_erase_of_ne _ h, binding?]

theorem binding?_foldl_restore (bound : String → Option TypeSet) (names : List String) (v : Variables) (name : String) :
    ((names.map fun n => (n, bound n)).foldl restore v).binding? name =
      if name ∈ names then bound name else v.binding? name := by
  induction names generalizing v with
  | nil => rfl
  | cons n rest ih =>
    rw [map_cons, foldl_cons, ih, binding?_restore]
    by_cases hrest : name ∈ rest
    · rw [if_pos hrest, if_pos (mem_cons_of_mem n hrest)]
    · by_cases hn : name = n
      · rw [if_neg hrest, if_pos hn, if_pos (mem_cons.mpr (.inl hn)), hn]
      · rw [if_neg hrest, if_neg hn, if_neg fun h => (mem_cons.mp h).elim hn hrest]

end Variables

namespace Sweeping

open Forest Inquiry Session

variable {x : Index} {types : NodeId → Inquiry TypeSet} {s : SweepStep} {todo rest : List SweepStep} {t u w : Session}
  {q p : List SweepStep × Session}

/-! ## Moves -/

/-- Take the first of the steps that are left. There is no move if none is left or the step fails. -/
def move (x : Index) (types : NodeId → Inquiry TypeSet) :
    List SweepStep × Session → Option (List SweepStep × Session)
  | ([], _) => none
  | (s :: rest, t) =>
    match ((step x s).interpret (answerSweep types)).run.perform t with
    | (.ok next, u) => some (next ++ rest, u)
    | (.error _, _) => none

/-- Moves lead from one state of a sweep to another. -/
def Reaches (x : Index) (types : NodeId → Inquiry TypeSet) :
    List SweepStep × Session → List SweepStep × Session → Prop :=
  ReflTransGen fun p q => move x types p = some q

theorem move_cons_eq_some :
    move x types (s :: rest, t) = some q ↔
      ∃ next, ((step x s).interpret (answerSweep types)).run.perform t = (.ok next, q.2) ∧ q.1 = next ++ rest := by
  rw [move]
  rcases ((step x s).interpret (answerSweep types)).run.perform t with ⟨r, u⟩
  cases r with
  | ok next =>
    constructor
    · rintro ⟨⟩
      exact ⟨next, rfl, rfl⟩
    · rintro ⟨next, ⟨⟩, h⟩
      exact congrArg some (Prod.ext h.symm rfl)
  | error e =>
    constructor
    · rintro ⟨⟩
    · rintro ⟨next, ⟨⟩, h⟩

/-- The state after so many moves, if there are so many. -/
def afterMoves (x : Index) (types : NodeId → Inquiry TypeSet) :
    Nat → List SweepStep × Session → Option (List SweepStep × Session)
  | 0, p => some p
  | n + 1, p => (move x types p).bind (afterMoves x types n)

theorem reaches_of_afterMoves {n : Nat} (h : afterMoves x types n p = some q) : Reaches x types p q := by
  induction n generalizing p with
  | zero =>
    cases h
    exact .refl
  | succ n ih =>
    obtain ⟨r, hmove, hrest⟩ := Option.bind_eq_some_iff.mp h
    exact .head hmove (ih hrest)

theorem move_append (h : move x types (todo, t) = some (rest, u)) (behind : List SweepStep) :
    move x types (todo ++ behind, t) = some (rest ++ behind, u) := by
  cases todo with
  | nil => cases h
  | cons s todo =>
    obtain ⟨next, hstep, hrest⟩ := move_cons_eq_some.mp h
    exact move_cons_eq_some.mpr ⟨next, hstep, (congrArg (· ++ behind) hrest).trans (append_assoc ..)⟩

theorem Reaches.append (h : Reaches x types (todo, t) (rest, u)) (behind : List SweepStep) :
    Reaches x types (todo ++ behind, t) (rest ++ behind, u) :=
  ReflTransGen.lift (r := fun p q => move x types p = some q) (fun p => (p.1 ++ behind, p.2))
    (fun _ _ hmove => move_append hmove behind) _ _ h

/-- Steps are worked off, with all that comes of them, before what is behind them is come to. -/
theorem reaches_append {first behind : List SweepStep} (h : Reaches x types (first ++ behind, t) (todo, w)) :
    (∃ left, todo = left ++ behind ∧ Reaches x types (first, t) (left, w)) ∨
      ∃ u, Reaches x types (first, t) ([], u) ∧ Reaches x types (behind, u) (todo, w) := by
  generalize hp : (first ++ behind, t) = p at h
  induction h using ReflTransGen.head_induction_on generalizing first t with
  | refl =>
    cases hp
    exact .inl ⟨first, rfl, .refl⟩
  | head hmove hrest ih =>
    subst hp
    cases first with
    | nil => exact .inr ⟨t, .refl, .head hmove hrest⟩
    | cons s first =>
      obtain ⟨next, hstep, hq⟩ := move_cons_eq_some.mp hmove
      have hfirst : move x types (s :: first, t) = some (next ++ first, _) :=
        move_cons_eq_some.mpr ⟨next, hstep, rfl⟩
      obtain ⟨left, htodo, hleft⟩ | ⟨u, hdone, hbehind⟩ :=
        ih (Prod.ext ((append_assoc next first behind).trans hq.symm) rfl)
      · exact .inl ⟨left, htodo, ReflTransGen.head hfirst hleft⟩
      · exact .inr ⟨u, ReflTransGen.head hfirst hdone, hbehind⟩

theorem reaches_cons (h : Reaches x types (s :: rest, t) (todo, w)) :
    (∃ left, todo = left ++ rest ∧ Reaches x types ([s], t) (left, w)) ∨
      ∃ u, Reaches x types ([s], t) ([], u) ∧ Reaches x types (rest, u) (todo, w) :=
  reaches_append h

/-! ## Moves come to an end -/

/-- Walks below the nodes that the steps visit end. -/
def Fitting (f : Forest) (todo : List SweepStep) : Prop :=
  ∀ id ∈ visits todo, f.Fits (f.size + 1) id

theorem fitting_append {f : Forest} {first behind : List SweepStep} :
    Fitting f (first ++ behind) ↔ Fitting f first ∧ Fitting f behind := by
  rw [Fitting, visits_append, forall_mem_append]
  exact Iff.rfl

theorem fitting_cons {f : Forest} : Fitting f (s :: rest) ↔ Fitting f [s] ∧ Fitting f rest := by
  rw [← singleton_append, fitting_append]

/-- A move makes the steps weigh less. -/
theorem move_less (hfits : Fitting x.forest p.1) (h : move x types p = some q) :
    Fitting x.forest q.1 ∧ total x.forest q.1 < total x.forest p.1 := by
  obtain ⟨todo, t⟩ := p
  cases todo with
  | nil => cases h
  | cons s rest =>
    obtain ⟨hs, hrest⟩ := fitting_cons.mp hfits
    obtain ⟨next, hstep, hq⟩ := move_cons_eq_some.mp h
    obtain ⟨hless, -, hnext⟩ := ok_of_ends (step_unfolds hs) (congrArg Prod.fst hstep)
    rw [hq, fitting_append, total_append, total_cons]
    exact ⟨⟨hnext, hrest⟩, Nat.add_lt_add_right hless _⟩

theorem Reaches.total_le (h : Reaches x types p q) (hfits : Fitting x.forest p.1) :
    Fitting x.forest q.1 ∧ total x.forest q.1 ≤ total x.forest p.1 := by
  induction h with
  | refl => exact ⟨hfits, Nat.le_refl _⟩
  | tail _ hmove ih =>
    obtain ⟨hfits', hless⟩ := move_less ih.1 hmove
    exact ⟨hfits', Nat.le_trans (Nat.le_of_lt hless) ih.2⟩

/-- The same steps are not come to twice. -/
theorem Reaches.session_eq (h : Reaches x types (todo, t) (todo, w)) (hfits : Fitting x.forest todo) : w = t := by
  obtain heq | ⟨q, hmove, hrest⟩ := ReflTransGen.cases_head h
  · exact (congrArg Prod.snd heq).symm
  · obtain ⟨hfits', hless⟩ := move_less hfits hmove
    exact absurd (Reaches.total_le hrest hfits').2 (Nat.not_le.mpr hless)

/-- What is behind a step is come to once, when the step is finished. -/
theorem Reaches.finished (h : Reaches x types (s :: rest, t) (rest, w)) (hfits : Fitting x.forest rest) :
    Reaches x types ([s], t) ([], w) := by
  obtain ⟨left, hrest, hleft⟩ | ⟨u, hdone, hbehind⟩ := reaches_cons h
  · obtain rfl := self_eq_append_left.mp hrest
    exact hleft
  · obtain rfl := hbehind.session_eq hfits
    exact hdone

/-- A sweep with as many steps as its list weighs that does not fail moves to the end of the list. -/
theorem reaches_of_steps {m : Nat} (hfits : Fitting x.forest todo) (hm : total x.forest todo ≤ m)
    (h : ((steps x m todo).interpret (answerSweep types)).run.perform t = (.ok (), w)) :
    Reaches x types (todo, t) ([], w) := by
  induction m generalizing todo t with
  | zero =>
    cases todo with
    | nil =>
      cases h
      exact .refl
    | cons s rest =>
      have hpos := one_le_weight x.forest s
      rw [total_cons] at hm
      omega
  | succ m ih =>
    cases todo with
    | nil =>
      cases h
      exact .refl
    | cons s rest =>
      rw [steps, Dialogue.interpret_bind, perform_bind] at h
      rcases hstep : ((step x s).interpret (answerSweep types)).run.perform t with ⟨r, u⟩
      rw [hstep] at h
      cases r with
      | error e => cases h
      | ok next =>
        have hmove : move x types (s :: rest, t) = some (next ++ rest, u) :=
          move_cons_eq_some.mpr ⟨next, hstep, rfl⟩
        obtain ⟨hfits', hless⟩ := move_less hfits hmove
        exact .head hmove (ih hfits' (Nat.le_of_lt_succ (Nat.lt_of_lt_of_le hless hm)) h)

/-- A sweep that does not fail finishes every step that it comes to. -/
theorem exists_reaches_rest {todo' : List SweepStep} (hend : Reaches x types (todo, t) ([], w))
    (h : Reaches x types (todo, t) (s :: todo', u)) : ∃ z, Reaches x types (s :: todo', u) (todo', z) := by
  have hunique : Relator.RightUnique fun p q => move x types p = some q :=
    fun _ _ _ h₁ h₂ => Option.some.inj (h₁.symm.trans h₂)
  have hlater : Reaches x types (s :: todo', u) ([], w) := by
    obtain hlater | hearlier := ReflTransGen.total_of_right_unique hunique h hend
    · exact hlater
    · obtain heq | ⟨q, hmove, -⟩ := ReflTransGen.cases_head hearlier
      · cases heq
      · cases hmove
  obtain ⟨left, hnil, hdone⟩ | ⟨z, hdone, -⟩ := reaches_cons hlater
  · obtain ⟨rfl, rfl⟩ := append_eq_nil_iff.mp hnil.symm
    exact ⟨w, hdone⟩
  · exact ⟨z, hdone.append todo'⟩

/-! ## Arrow functions -/

theorem move_visit_arrowFunction {node : NodeId} (hkind : x.forest.kind node = .arrowFunction) :
    move x types ([.visit node], t) =
      some ((x.forest.parameters node).map bindSelf ++ (x.forest.body? node).toList.map .visit ++
        [.restore (shadowed x.forest (x.forest.parameters node) t.frame?)], t) := by
  refine move_cons_eq_some.mpr ⟨_, ?_, (append_nil _).symm⟩
  rw [step, visit, hkind]
  rfl

theorem move_restore (saved : List (String × Option TypeSet)) :
    move x types ([.restore saved], t) = some ([], t.modifyVariables fun v => saved.foldl Variables.restore v) :=
  rfl

section Amid

variable {limit : Nat} {stack : List NodeId} {sweeps : Sweeps} {scope : NodeId}
  (htypes : ∀ sweeps node, Keeps (Act.InOrder limit) (Rests limit stack sweeps) (types node))

theorem exists_frame_of_amid (h : Amid limit stack sweeps scope t) : ∃ v, t.frame? = some v ∧ v.scope = scope := by
  obtain ⟨v, hscope, ht⟩ := h
  refine ⟨v, ?_, hscope⟩
  rw [frame?, ht.sweeps_eq]
  rfl

include htypes

/-- The sweep stays under way while it moves. -/
theorem Reaches.amid {p q : List SweepStep × Session} (h : Reaches x types p q)
    (hp : Amid limit stack sweeps scope p.2) : Amid limit stack sweeps scope q.2 := by
  induction h with
  | refl => exact hp
  | @tail p q _ hmove ih =>
    obtain ⟨todo, t⟩ := p
    cases todo with
    | nil => cases hmove
    | cons s rest =>
      obtain ⟨next, hstep, -⟩ := move_cons_eq_some.mp hmove
      have hkept := (Keeps.interpret (answerSweep_keeps htypes) (step x s)).perform ih
      rwa [hstep] at hkept

/-- When the visit of an arrow function is finished, its parameters are bound to what they were bound to before. -/
theorem Reaches.restores {node : NodeId} (hkind : x.forest.kind node = .arrowFunction)
    (ht : Amid limit stack sweeps scope t) (h : Reaches x types ([.visit node], t) ([], w)) :
    ∃ v v', t.frame? = some v ∧ v.scope = scope ∧ w.frame? = some v' ∧ v'.scope = scope ∧
      ∀ p ∈ x.forest.parameters node, ∀ name, (x.forest.kind p).name? = some name →
        v'.binding? name = v.binding? name := by
  obtain heq | ⟨q, hmove, hparts⟩ := ReflTransGen.cases_head h
  · cases heq
  rw [move_visit_arrowFunction hkind] at hmove
  cases hmove
  -- All that comes before the last step of the arrow function is worked off first.
  obtain ⟨left, hnil, -⟩ | ⟨u, hbody, hlast⟩ := reaches_append hparts
  · exact absurd hnil.symm (by simp)
  obtain heq | ⟨q, hmove, hdone⟩ := ReflTransGen.cases_head hlast
  · cases heq
  rw [move_restore] at hmove
  cases hmove
  obtain heq | ⟨q, hmove, -⟩ := ReflTransGen.cases_head hdone
  · cases heq
    obtain ⟨v, hv, hscope⟩ := exists_frame_of_amid ht
    obtain ⟨v', hscope', hu⟩ := hbody.amid htypes ht
    have hframe := congrArg (·.head?.map Sweep.frame) (hu.modifyVariables fun v =>
      (shadowed x.forest (x.forest.parameters node) t.frame?).foldl Variables.restore v).sweeps_eq
    refine ⟨v, _, hv, hscope, hframe, hscope', ?_⟩
    intro p hp name hname
    have hmem : name ∈ (x.forest.parameters node).filterMap fun p => (x.forest.kind p).name? :=
      mem_filterMap.mpr ⟨p, hp, hname⟩
    change (List.foldl Variables.restore v' _).binding? name = _
    rw [shadowed, hv, Variables.binding?_foldl_restore, if_pos hmem]
    rfl
  · cases hmove

end Amid

/-- **The parameters of arrow functions do not leak**: take any sweep that is begun in a resolution, in a linked forest
and whatever was resolved before, and any visit of an arrow function that the sweep comes to. If the sweep does not
fail, it comes to what is behind the visit; and whenever it does, the variables of the sweep bind the parameters of the
arrow function to what they were bound to when it was visited. -/
theorem arrow_parameters_restored (hlink : x.forest.Linked) (hparents : x.forest.ParentsReached) {limit : Nat}
    {before : List NodeId} {node : NodeId} {d : Demand}
    (hmade : Relation.ReflTransGen (Demand.Makes x limit) ⟨node, x.resolveAll limit before {}⟩ d)
    (hopens : d.Opens limit) {scope : NodeId} {s : Session} (hbegins : d.BeginsSweep x limit scope s) {a : NodeId}
    (hkind : x.forest.kind a = .arrowFunction)
    (hvisit : Reaches x (d.resolver x limit) (firstSteps x.forest scope, s) (.visit a :: rest, t)) :
    ∃ v, t.frame? = some v ∧ v.scope = scope ∧
      ((∃ e, (((Sweeping.scope x scope).interpret (answerSweep (d.resolver x limit))).run.perform s).1 = .error e) ∨
        ∃ w, Reaches x (d.resolver x limit) (.visit a :: rest, t) (rest, w)) ∧
      ∀ w, Reaches x (d.resolver x limit) (.visit a :: rest, t) (rest, w) →
        ∃ v', w.frame? = some v' ∧ v'.scope = scope ∧
          ∀ p ∈ x.forest.parameters a, ∀ name, (x.forest.kind p).name? = some name →
            v'.binding? name = v.binding? name := by
  obtain ⟨hbracketed, hgathered⟩ := Demand.of_made hmade
  have hscope := (hbegins.isReadingScope hgathered).reached hlink hparents
  have hfits : x.forest.Fits (x.forest.size + 1) scope := hlink.fits hscope.1
  have hfirst : Fitting x.forest (firstSteps x.forest scope) := fun c hc => (hfits c (mem_visits_firstSteps hc)).succ
  have hbehind : Fitting x.forest rest := (fitting_cons.mp (hvisit.total_le hfirst).1).2
  have ht := hvisit.amid (Demand.resolver_keeps hopens) (hbegins.amid hbracketed hopens)
  obtain ⟨v, hv, hvscope⟩ := exists_frame_of_amid ht
  refine ⟨v, hv, hvscope, ?_, fun w hw => ?_⟩
  · rcases hrun : ((Sweeping.scope x scope).interpret (answerSweep (d.resolver x limit))).run.perform s with ⟨r, z⟩
    cases r with
    | error e => exact .inl ⟨e, rfl⟩
    | ok _ =>
      exact .inr (exists_reaches_rest (reaches_of_steps hfirst (total_firstSteps_le hfits) hrun) hvisit)
  · obtain ⟨v₁, v', hv₁, -, hv', hscope', hbindings⟩ :=
      (hw.finished hbehind).restores (Demand.resolver_keeps hopens) hkind ht
    obtain rfl := Option.some.inj (hv₁.symm.trans hv)
    exact ⟨v', hv', hscope', hbindings⟩

/-- An arrow function that assigns to its parameter, with an arrow function inside of it that has a parameter of the
same name and assigns to it. -/
def nestedArrows : List (String × String) :=
  [("a.php", "<?php\n$a = 1;\n$f = fn($a) => [$a = 'x', fn($a) => $a = 2.0];\n$a;\n")]

/-- The question begins the sweep of the file, which comes to the outer arrow function with an integer in `$a`, and to
its end. -/
def comesToArrow (x : Index) (d : Demand) (e : NodeQuestion × Session) : Bool :=
  match e.1 with
  | .read _ scope name =>
    let s := (e.2.beginSweep scope).2
    scope == 20 && (e.2.readAhead scope name).1.isNone && (e.2.beginSweep scope).1 &&
      (((Sweeping.scope x scope).interpret (answerSweep (d.resolver x 512))).run.perform s).1.isOk &&
      match afterMoves x (d.resolver x 512) 6 (firstSteps x.forest scope, s) with
      | some (.visit a :: _, t) =>
        a == 15 && t.frame?.any fun v => (v.binding? "a").map TypeSet.names == some ["int"]
      | _ => false
  | _ => false

theorem arrow_parameters_restored_nestedArrows : let x := Index.ofPrograms nestedArrows
    let d : Demand := ⟨18, {}⟩
    ∃ s t w rest v v', d.BeginsSweep x 512 20 s ∧
      Reaches x (d.resolver x 512) (firstSteps x.forest 20, s) (.visit 15 :: rest, t) ∧
      Reaches x (d.resolver x 512) (.visit 15 :: rest, t) (rest, w) ∧ t.frame? = some v ∧ w.frame? = some v' ∧
      (v.binding? "a").map TypeSet.names = some ["int"] ∧ v'.binding? "a" = v.binding? "a" := by
  intro x d
  have hfacts : x.forest.kind 15 = .arrowFunction ∧ 5 ∈ x.forest.parameters 15 ∧
      (x.forest.kind 5).name? = some "a" ∧
      (d.questions x 512).any (comesToArrow x d) = true := by decide +kernel
  obtain ⟨hkind, hparam, hname, hasks⟩ := hfacts
  obtain ⟨⟨q, u⟩, hasked, htest⟩ := List.any_eq_true.mp hasks
  cases q with
  | read n scope name =>
    simp only [comesToArrow, Bool.and_eq_true, beq_iff_eq, Option.isNone_iff_eq_none] at htest
    obtain ⟨⟨⟨⟨rfl, hahead⟩, hbegun⟩, hok⟩, hmoves⟩ := htest
    split at hmoves
    next a rest t hstate =>
      simp only [Bool.and_eq_true, beq_iff_eq, Option.any_eq_true] at hmoves
      obtain ⟨rfl, v, hv, hint⟩ := hmoves
      have hbuilt := Index.ofForests_built (Index.ofForests_ofPrograms nestedArrows)
      have hparents : x.forest.ParentsReached := fun id up =>
        hbuilt.reached_of_parent (Index.joined_unlinked Index.unlinked_of_mem_forestsOf)
      have hbegins : d.BeginsSweep x 512 20 (u.beginSweep 20).2 := ⟨n, name, u, hasked, hahead, hbegun, rfl⟩
      have hvisit := reaches_of_afterMoves hstate
      have hmade : Relation.ReflTransGen (Demand.Makes x 512) ⟨18, x.resolveAll 512 [] {}⟩ d := .refl
      obtain ⟨v₁, hv₁, -, hends, hrestores⟩ := arrow_parameters_restored hbuilt.linked hparents hmade
        ⟨rfl, nofun, by decide⟩ hbegins hkind hvisit
      obtain rfl := Option.some.inj (hv₁.symm.trans hv)
      obtain ⟨e, herror⟩ | ⟨w, hdone⟩ := hends
      · rw [herror] at hok
        cases hok
      · obtain ⟨v', hv', -, hbindings⟩ := hrestores w hdone
        exact ⟨_, t, w, rest, v₁, v', hbegins, hvisit, hdone, hv₁, hv', hint, hbindings 5 hparam "a" hname⟩
    next => cases hmoves
  | _ => cases htest

end Sweeping

end EventAtlas
