import EventAtlas.Proofs.Inference.Passes
import EventAtlas.Proofs.Inference.SweepScopes

/-!
# Who asks for what

In a run the strategy of a node asks for the types of other nodes, itself or by a sweep that it has begun, and the
strategies of these nodes ask in turn. A `Demand` is a node that is asked for in a session; `Demand.Makes` relates it to
the demands that come of it directly. So the demands of a resolution are a tree, and the stack of a session names the
demands on the way from the root (`Demand.Makes.rest`). A sweep is begun for a scope in which a node reads
(`Demand.BeginsSweep.isReadingScope`).
-/

namespace EventAtlas

namespace Inquiry

variable {α : Type}

section Asked

variable {Q : Type} [Questions Q] {answer : (q : Q) → Inquiry (Questions.Answer q)}

/-- What a dialogue asks, each question with the session that finds it. Nothing is asked after an error. -/
def asked (answer : (q : Q) → Inquiry (Questions.Answer q)) : Dialogue Q α → Session → List (Q × Session)
  | .done _, _ => []
  | .ask q next, s =>
    (q, s) :: match (answer q).run.perform s with
      | (.ok a, t) => asked answer (next a) t
      | (.error _, _) => []

/-- What all answers keep holds whenever something is asked. -/
theorem Keeps.asked {pre : Act → Session → Prop} {inv : Session → Prop} (h : ∀ q, Keeps pre inv (answer q))
    {d : Dialogue Q α} {s : Session} (hs : inv s) : ∀ e ∈ asked answer d s, inv e.2 := by
  induction d generalizing s with
  | done a => exact nofun
  | ask q next ih =>
    rw [Inquiry.asked, List.forall_mem_cons]
    refine ⟨hs, ?_⟩
    have hinv := (h q).perform hs
    rcases hq : (answer q).run.perform s with ⟨r, t⟩
    rw [hq] at hinv
    cases r with
    | ok a => exact ih a hinv
    | error e => exact nofun

/-- A dialogue fails with the error of an answer. -/
theorem exists_asked_of_error {d : Dialogue Q α} {s s' : Session} {e : ResolveError}
    (h : (d.interpret answer).run.perform s = (.error e, s')) :
    ∃ q t, (q, t) ∈ asked answer d s ∧ (answer q).run.perform t = (.error e, s') := by
  induction d generalizing s with
  | done a => cases h
  | ask q next ih =>
    rw [Dialogue.interpret, perform_bind] at h
    rw [asked]
    rcases hq : (answer q).run.perform s with ⟨r, t⟩
    rw [hq] at h
    cases r with
    | ok a =>
      obtain ⟨q', t', hmem, herror⟩ := ih a h
      exact ⟨q', t', List.mem_cons_of_mem _ hmem, herror⟩
    | error e' =>
      cases h
      exact ⟨q, s, List.mem_cons_self, hq⟩

end Asked

section Gathered

open Session Strategy

variable {x : Index} {types : NodeId → Inquiry TypeSet} (htypes : ∀ n, KeepsCollected x.forest (types n))

include htypes

theorem answer_gathered (q : NodeQuestion) : Keeps (fun _ _ => True) (Gathered x.forest) (answer x types q) := by
  cases q with
  | types n => exact fun s hs => (htypes n s hs).imp (fun _ _ _ _ => trivial) fun _ _ _ h => h
  | read n scope name =>
    exact fun s hs => (readVariable_collected htypes n scope name s hs).imp (fun _ _ _ _ => trivial) fun _ _ _ h => h
  | collect c => exact keeps_act (fun _ _ => trivial) fun s hs => hs.perform (a := .collect x.forest c) rfl
  | _ => exact keeps_act (fun _ _ => trivial) fun s hs => hs.perform trivial

omit htypes in
/-- A strategy that asks as it should goes on to do so after every answer that it gets in a run. -/
theorem exists_asks_of_answer {node : NodeId} {absent collected : List NodeId} {q : NodeQuestion}
    {next : q.Answer → Strategy α} {s t : Session} {a : q.Answer}
    (hd : Strategy.Asks x.forest node absent collected (.ask q next)) (hs : s.Gathered x.forest)
    (ha : (answer x types q).run.perform s = (.ok a, t)) :
    ∃ absent' collected', (next a).Asks x.forest node absent' collected' := by
  cases q with
  | types n => exact ⟨_, _, hd.2 a⟩
  | read n scope name => exact ⟨_, _, hd.2 a⟩
  | collect c => exact ⟨_, _, hd⟩
  | isResolving n =>
    cases a with
    | true => exact ⟨_, _, hd.1⟩
    | false => exact ⟨_, _, hd.2⟩
  | writesTo decl =>
    cases ha
    exact ⟨_, _, hd.2 _ (hs.guarded.writesTo decl)⟩
  | looseWrites owner name =>
    cases ha
    exact ⟨_, _, hd.2 _ (hs.guarded.looseWrites owner name)⟩

/-- What a strategy reads, it reads in the scope of its node. -/
theorem readingScope?_of_asked {node n scope : NodeId} {name : String} {absent collected : List NodeId}
    {d : Strategy α} {s t : Session} (hd : d.Asks x.forest node absent collected) (hs : s.Gathered x.forest)
    (hasked : (.read n scope name, t) ∈ asked (answer x types) d s) : readingScope? x.forest node = some scope := by
  induction d generalizing absent collected s with
  | done a => cases hasked
  | ask q next ih =>
    rw [asked, List.mem_cons] at hasked
    obtain heq | hlater := hasked
    · cases heq
      exact hd.1.2
    · have hu := (answer_gathered htypes q).perform hs
      rcases hq : (answer x types q).run.perform s with ⟨r, u⟩
      rw [hq] at hu hlater
      cases r with
      | error e => cases hlater
      | ok a =>
        obtain ⟨absent', collected', hnext⟩ := exists_asks_of_answer hd hs hq
        exact ih a hnext hu hlater

end Gathered

end Inquiry

/-- A node that is asked for, and the session in which that is done. -/
structure Demand where
  node : NodeId
  session : Session

namespace Demand

open Inquiry Session

variable {x : Index} {limit : Nat} {d e : Demand} {scope : NodeId} {s t : Session}

/-- The node is not remembered and not on the stack, and the stack has room for it: its strategy is held. -/
structure Opens (limit : Nat) (d : Demand) : Prop where
  not_remembered : d.session.memo.find? d.node = none
  not_resolving : d.node ∉ d.session.resolving
  room : d.session.stack.length < limit

/-- What resolves the nodes for which the strategy of the node asks. -/
def resolver (x : Index) (limit : Nat) (d : Demand) : NodeId → Inquiry TypeSet :=
  resolveWithin x limit (limit - (d.session.stack.length + 1))

/-- What the strategy of the node asks, each question with the session that finds it. -/
def questions (x : Index) (limit : Nat) (d : Demand) : List (NodeQuestion × Session) :=
  asked (answer x (d.resolver x limit)) (Strategy.dispatch x d.node) (d.session.push d.node)

/-- The strategy of the node reads a variable for which it begins to sweep a scope, in the session `s`. -/
def BeginsSweep (x : Index) (limit : Nat) (d : Demand) (scope : NodeId) (s : Session) : Prop :=
  ∃ node name t, (.read node scope name, t) ∈ d.questions x limit ∧ (t.readAhead scope name).1 = none ∧
    (t.beginSweep scope).1 = true ∧ s = (t.beginSweep scope).2

/-- The strategy of one demand makes another: it asks for the node itself, or a sweep does that it has begun. -/
inductive Makes (x : Index) (limit : Nat) : Demand → Demand → Prop
  | itself {d : Demand} {node : NodeId} {t : Session} (hopens : d.Opens limit)
      (hasked : (.types node, t) ∈ d.questions x limit) : Makes x limit d ⟨node, t⟩
  | sweeping {d : Demand} {scope node : NodeId} {s t : Session} (hopens : d.Opens limit)
      (hbegins : d.BeginsSweep x limit scope s)
      (hasked : (.types node, t) ∈ asked (answerSweep (d.resolver x limit)) (Sweeping.scope x scope) s) :
      Makes x limit d ⟨node, t⟩

/-! ## Stacks -/

theorem resolver_keeps (hopens : d.Opens limit) (sweeps : Sweeps) (node : NodeId) :
    Keeps (Act.InOrder limit) (Rests limit (d.node :: d.session.stack) sweeps) (d.resolver x limit node) := by
  refine resolveWithin_rests x limit _ node _ sweeps ?_
  have := hopens.room
  rw [List.length_cons]
  omega

theorem depths_lt (hd : d.session.Bracketed limit) :
    ∀ w ∈ d.session.sweeps, w.depth < (d.node :: d.session.stack).length :=
  fun w hw => Nat.lt_succ_of_le (hd.sweeps_nested.depth_bounds w hw).2

/-- The node is on the stack whenever its strategy asks. -/
theorem questions_rest (hd : d.session.Bracketed limit) (hopens : d.Opens limit) :
    ∀ e ∈ d.questions x limit, Rests limit (d.node :: d.session.stack) d.session.sweeps e.2 := by
  refine Keeps.asked (answer_keeps (resolver_keeps hopens) (depths_lt hd) (Nat.succ_le_succ (Nat.zero_le _))) ?_
  have hs : Rests limit d.session.stack d.session.sweeps d.session := ⟨hd, rfl, rfl⟩
  refine hs.push ?_ hopens.room
  rw [← hd.resolving_eq]
  exact hopens.not_resolving

/-- A sweep begins with the node on the stack. -/
theorem BeginsSweep.amid (h : d.BeginsSweep x limit scope s) (hd : d.session.Bracketed limit) (hopens : d.Opens limit) :
    Amid limit (d.node :: d.session.stack) d.session.sweeps scope s := by
  obtain ⟨node, name, t, hasked, -, hbegun, rfl⟩ := h
  have ht := questions_rest hd hopens _ hasked
  exact ⟨{ scope }, rfl, ht.beginSweep (depths_lt hd) (Nat.succ_le_succ (Nat.zero_le _)) hbegun⟩

/-- A demand is made with the node that makes it on top of the stack. -/
theorem Makes.rest (h : Makes x limit d e) (hd : d.session.Bracketed limit) :
    e.session.Bracketed limit ∧ e.session.stack = d.node :: d.session.stack := by
  cases h with
  | itself hopens hasked =>
    have ht := questions_rest hd hopens _ hasked
    exact ⟨ht.bracketed, ht.stack_eq⟩
  | sweeping hopens hbegins hasked =>
    obtain ⟨v, -, ht⟩ := Keeps.asked (answerSweep_keeps (resolver_keeps hopens)) (hbegins.amid hd hopens) _ hasked
    exact ⟨ht.bracketed, ht.stack_eq⟩

/-! ## Scopes -/

theorem resolver_collected (d : Demand) (node : NodeId) : KeepsCollected x.forest (d.resolver x limit node) :=
  resolveWithin_collected x limit _ node

theorem questions_gathered (hd : d.session.Gathered x.forest) : ∀ e ∈ d.questions x limit, e.2.Gathered x.forest :=
  Keeps.asked (answer_gathered d.resolver_collected) (hd.perform (a := .enter d.node) trivial)

/-- A sweep is begun for a scope in which a node reads. -/
theorem BeginsSweep.isReadingScope (h : d.BeginsSweep x limit scope s) (hd : d.session.Gathered x.forest) :
    x.forest.IsReadingScope scope := by
  obtain ⟨node, name, t, hasked, -⟩ := h
  exact ⟨d.node, readingScope?_of_asked d.resolver_collected (Strategy.dispatch_asks x d.node)
    (hd.perform (a := .enter d.node) trivial) hasked⟩

theorem Makes.gathered (h : Makes x limit d e) (hd : d.session.Gathered x.forest) : e.session.Gathered x.forest := by
  cases h with
  | itself hopens hasked => exact questions_gathered hd _ hasked
  | sweeping hopens hbegins hasked =>
    obtain ⟨node, name, t, hread, -, -, rfl⟩ := hbegins
    have ht := questions_gathered hd _ hread
    exact Keeps.asked (answerSweep_collected d.resolver_collected) (ht.perform (a := .beginSweep _) trivial) _ hasked

/-- All demands of a resolution are made in sessions that are bracketed and have collected what the forest says. -/
theorem of_made {before : List NodeId} {node : NodeId}
    (h : Relation.ReflTransGen (Makes x limit) ⟨node, x.resolveAll limit before {}⟩ d) :
    d.session.Bracketed limit ∧ d.session.Gathered x.forest := by
  induction h with
  | refl =>
    have hidle := x.resolveAll_idle limit before Session.new_idle
    exact ⟨(rests_nil_iff_idle.mpr hidle).bracketed, x.resolveAll_gathered limit before⟩
  | tail _ hmakes ih => exact ⟨(hmakes.rest ih.1).1, hmakes.gathered ih.2⟩

end Demand

end EventAtlas
