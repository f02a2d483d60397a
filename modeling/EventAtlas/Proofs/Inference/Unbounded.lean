import EventAtlas.Proofs.Inference.Bracketing

/-!
# Resolution without bounds

A resolution is a total function here because it carries two bounds: the room that is left on the stack, and a number of
steps for each sweep. Nothing of the kind is in a resolver that just calls itself. This module writes that resolver
down: a routine asks for acts of the session, for the height of the stack, and for calls of itself (`Move`), and what a
call does is said by a routine again (`Routine.node`, `Routine.steps`). `Index.Runs` is the relation between a routine
and its result: a derivation is a run that has come to its end, and no rule cuts a run short. A run has one result
(`Index.Runs.unique`).

`Follows` relates a routine to an inquiry that gives the same results; it goes through sequences of questions
(`Follows.interpret`), so the strategies are not looked at.
-/

namespace EventAtlas

/-! ## Laws of dialogues -/

namespace Dialogue

variable {Q : Type} [Questions Q] {α β : Type}

theorem bind_done (d : Dialogue Q α) : d >>= done = d := by
  induction d with
  | done a => rfl
  | ask q next ih => exact congrArg (ask q) (funext ih)

theorem bind_bind {γ : Type} (d : Dialogue Q α) (g : α → Dialogue Q β) (k : β → Dialogue Q γ) :
    d >>= g >>= k = d >>= fun a => g a >>= k := by
  induction d with
  | done a => rfl
  | ask q next ih => exact congrArg (ask q) (funext ih)

instance : LawfulMonad (Dialogue Q) :=
  LawfulMonad.mk' _ bind_done (fun _ _ => rfl) bind_bind

theorem interpret_bind {m : Type → Type} [Monad m] [LawfulMonad m] (answer : (q : Q) → m (Questions.Answer q))
    (d : Dialogue Q α) (g : α → Dialogue Q β) :
    (d >>= g).interpret answer = d.interpret answer >>= fun a => (g a).interpret answer := by
  induction d with
  | done a => exact (pure_bind a fun a => (g a).interpret answer).symm
  | ask q next ih =>
    rw [ask_bind, interpret, interpret, bind_assoc]
    exact congrArg (answer q >>= ·) (funext ih)

theorem perform_bind (d : Dialogue Act α) (g : α → Dialogue Act β) (s : Session) :
    (d >>= g).perform s = (g (d.perform s).1).perform (d.perform s).2 := by
  induction d generalizing s with
  | done a => rfl
  | ask act next ih => rw [ask_bind, perform_ask, perform_ask, ih]

/-- Whatever the answers are, the dialogue ends with a result as `post` says. -/
abbrev Ends (post : α → Prop) (d : Dialogue Q α) : Prop :=
  d.Gives (fun _ => True) (fun _ _ => True) post

theorem ends_true (d : Dialogue Q α) : d.Ends fun _ => True := by
  induction d with
  | done a => trivial
  | ask q next ih => exact ⟨trivial, fun a _ => ih a⟩

end Dialogue

/-! ## Routines -/

/-- What a resolution without bounds asks. -/
inductive Move where
  /-- An act of the session. -/
  | act (a : Act)
  /-- How many nodes are on the stack. -/
  | height
  /-- The types of a node. -/
  | resolve (node : NodeId)
  /-- That the steps of a sweep are taken until none is left. -/
  | proceed (todo : List SweepStep)

namespace Move

/-- The answers to a move. -/
@[reducible] def Answer : Move → Type
  | act a => a.Answer
  | height => Nat
  | resolve _ => Except ResolveError TypeSet
  | proceed _ => Except ResolveError PUnit

instance : Questions Move := ⟨Answer⟩

end Move

/-- A dialogue of moves that ends with a result or an error. -/
abbrev Routine := ExceptT ResolveError (Dialogue Move)

namespace Routine

/-- Do one act. -/
def act (a : Act) : Routine a.Answer :=
  liftM (Dialogue.question (Move.act a))

/-- How many nodes are on the stack. -/
def height : Routine Nat :=
  liftM (Dialogue.question Move.height)

/-- Call for the types of a node. -/
def resolve (node : NodeId) : Routine TypeSet :=
  ExceptT.mk (Dialogue.question (Move.resolve node))

/-- Call for the steps of a sweep. -/
def proceed (todo : List SweepStep) : Routine PUnit :=
  ExceptT.mk (Dialogue.question (Move.proceed todo))

/-- The answer to what a sweep asks. -/
def answerSweep : (q : SweepQuestion) → Routine q.Answer
  | .types node => resolve node
  | .isResolving node => act (.isResolving node)
  | .current => act .current
  | .change g => act (.changeVariables g)
  | .read node name => act (.rememberRead node name)

/-- Take the steps of a sweep until none is left. -/
def steps (x : Index) : List SweepStep → Routine PUnit
  | [] => return
  | s :: rest => do
    let next ← (Sweeping.step x s).interpret answerSweep
    proceed (next ++ rest)

/-- Sweep a scope, unless that has been done or is under way. -/
def sweep (x : Index) (scope : NodeId) : Routine PUnit := ExceptT.mk do
  let begun : Bool ← Dialogue.question (Move.act (.beginSweep scope))
  if begun then
    let result ← (proceed (Sweeping.firstSteps x.forest scope)).run
    Dialogue.question (Move.act (.endSweep scope result.isOk))
    return result
  else return .ok ()

/-- The types of a variable at a node that reads it in a scope. -/
def readVariable (x : Index) (node scope : NodeId) (name : String) : Routine TypeSet := do
  match ← act (.readAhead scope name) with
  | some found => return found
  | none =>
    sweep x scope
    act (.readBehind node scope)

/-- The answer to what a strategy asks. -/
def answer (x : Index) : (q : NodeQuestion) → Routine q.Answer
  | .types node => resolve node
  | .isResolving node => act (.isResolving node)
  | .read node scope name => readVariable x node scope name
  | .collect c => act (.collect x.forest c)
  | .writesTo decl => act (.writesTo decl)
  | .looseWrites owner name => act (.looseWrites owner name)

/-- Resolve a node while it is on the stack. -/
def framed (x : Index) (node : NodeId) : Routine TypeSet := ExceptT.mk do
  Dialogue.question (Move.act (.enter node))
  let result := (← ((Strategy.dispatch x node).interpret (answer x)).run).map (Inquiry.orUnknown (x.forest.kind node))
  Dialogue.question (Move.act (.leave node result.toOption))
  return result

/-- The remembered types of a node. A node on the stack adds nothing or is refused, and a stack that has reached its
limit takes no more nodes. -/
def node (x : Index) (limit : Nat) (node : NodeId) : Routine TypeSet := do
  match ← act (.lookUp node) with
  | some types => return types
  | none =>
    if ← act (.isResolving node) then
      if Inquiry.addsNothing (x.forest.kind node) then return {}
      else throw (.circular ((← act (.cycle node)).map fun n => (x.forest.kind n).display))
    else if limit ≤ (← height) then throw (.depthExceeded limit (x.forest.kind node).display)
    else framed x node

end Routine

/-! ## Runs -/

/-- A routine that is run in the session `s` comes to an end, with this result and in the session `s'`. -/
inductive Index.Runs (x : Index) (limit : Nat) : {α : Type} → Dialogue Move α → Session → α → Session → Prop
  | done {α : Type} {a : α} {s : Session} : Runs x limit (.done a) s a s
  | act {α : Type} {a : Act} {next : a.Answer → Dialogue Move α} {s s' : Session} {r : α} :
    Runs x limit (next (a.perform s).1) (a.perform s).2 r s' → Runs x limit (.ask (.act a) next) s r s'
  | height {α : Type} {next : Nat → Dialogue Move α} {s s' : Session} {r : α} :
    Runs x limit (next s.stack.length) s r s' → Runs x limit (.ask .height next) s r s'
  | resolve {α : Type} {node : NodeId} {next : Except ResolveError TypeSet → Dialogue Move α} {s s₁ s' : Session}
      {found : Except ResolveError TypeSet} {r : α} :
    Runs x limit (Routine.node x limit node).run s found s₁ → Runs x limit (next found) s₁ r s' →
      Runs x limit (.ask (.resolve node) next) s r s'
  | proceed {α : Type} {todo : List SweepStep} {next : Except ResolveError PUnit → Dialogue Move α}
      {s s₁ s' : Session} {ended : Except ResolveError PUnit} {r : α} :
    Runs x limit (Routine.steps x todo).run s ended s₁ → Runs x limit (next ended) s₁ r s' →
      Runs x limit (.ask (.proceed todo) next) s r s'

namespace Index.Runs

variable {x : Index} {limit : Nat} {α β : Type}

/-- A run has one result. -/
theorem unique {d : Dialogue Move α} {s s₁ s₂ : Session} {r₁ r₂ : α} (h₁ : x.Runs limit d s r₁ s₁)
    (h₂ : x.Runs limit d s r₂ s₂) : r₁ = r₂ ∧ s₁ = s₂ := by
  induction h₁ generalizing s₂ with
  | done =>
    cases h₂
    exact ⟨rfl, rfl⟩
  | act _ ih =>
    cases h₂ with
    | act h => exact ih h
  | height _ ih =>
    cases h₂ with
    | height h => exact ih h
  | resolve _ _ ihcall ihnext =>
    cases h₂ with
    | resolve hcall hnext =>
      obtain ⟨rfl, rfl⟩ := ihcall hcall
      exact ihnext hnext
  | proceed _ _ ihcall ihnext =>
    cases h₂ with
    | proceed hcall hnext =>
      obtain ⟨rfl, rfl⟩ := ihcall hcall
      exact ihnext hnext

/-- Runs one after the other are a run. -/
theorem bind {d : Dialogue Move α} {g : α → Dialogue Move β} {s s₁ s₂ : Session} {a : α} {r : β}
    (hd : x.Runs limit d s a s₁) (hg : x.Runs limit (g a) s₁ r s₂) : x.Runs limit (d >>= g) s r s₂ := by
  induction hd with
  | done => exact hg
  | act _ ih => exact .act (ih hg)
  | height _ ih => exact .height (ih hg)
  | resolve hcall _ _ ihnext => exact .resolve hcall (ihnext hg)
  | proceed hcall _ _ ihnext => exact .proceed hcall (ihnext hg)

theorem act_bind {a : Act} {g : a.Answer → Routine α} {s s' : Session} {r : Except ResolveError α}
    (h : x.Runs limit (g (a.perform s).1).run (a.perform s).2 r s') : x.Runs limit (Routine.act a >>= g).run s r s' :=
  .act h

theorem height_bind {g : Nat → Routine α} {s s' : Session} {r : Except ResolveError α}
    (h : x.Runs limit (g s.stack.length).run s r s') : x.Runs limit (Routine.height >>= g).run s r s' :=
  .height h

end Index.Runs

/-! ## Routines beside inquiries -/

namespace Inquiry

variable {α β : Type}

theorem perform_bind (i : Inquiry α) (g : α → Inquiry β) (s : Session) :
    (i >>= g).run.perform s = match i.run.perform s with
      | (.ok a, s') => (g a).run.perform s'
      | (.error e, s') => (.error e, s') := by
  rw [ExceptT.run_bind, Dialogue.perform_bind]
  obtain ⟨r, s'⟩ := i.run.perform s
  cases r <;> rfl

theorem framed_perform (f : Forest) (node : NodeId) (i : Inquiry TypeSet) (s : Session) :
    (framed f node i).run.perform s =
      let found := (i.run.perform (s.push node)).1.map (orUnknown (f.kind node))
      (found, (i.run.perform (s.push node)).2.leave node found.toOption) := by
  rw [framed, ExceptT.run_mk, Dialogue.question_bind, Dialogue.perform_ask, Dialogue.perform_bind]
  rfl

theorem sweep_perform (x : Index) (types : NodeId → Inquiry TypeSet) (scope : NodeId) (s : Session) :
    (sweep x types scope).run.perform s =
      if (s.beginSweep scope).1 then
        let ended := ((Sweeping.scope x scope).interpret (answerSweep types)).run.perform (s.beginSweep scope).2
        (ended.1, ended.2.endSweep scope ended.1.isOk)
      else (.ok (), (s.beginSweep scope).2) := by
  rw [sweep, ExceptT.run_mk, Dialogue.question_bind, Dialogue.perform_ask]
  change Dialogue.perform (if (s.beginSweep scope).1 then _ else _) _ = _
  split
  · rw [Dialogue.perform_bind]
    rfl
  · rfl

theorem Keeps.perform {pre : Act → Session → Prop} {inv : Session → Prop} {i : Inquiry α} (h : Keeps pre inv i)
    {s : Session} (hs : inv s) : inv (i.run.perform s).2 :=
  (h s hs).atEnd

/-- Whatever the answers are, what a dialogue gives is as its end says. -/
theorem ok_of_ends {Q : Type} [Questions Q] {answer : (q : Q) → Inquiry (Questions.Answer q)} {post : α → Prop}
    {d : Dialogue Q α} (h : d.Ends post) {s : Session} {a : α} (ha : ((d.interpret answer).run.perform s).1 = .ok a) :
    post a := by
  induction d generalizing s with
  | done b => exact Except.ok.inj ha ▸ h
  | ask q next ih =>
    rw [Dialogue.interpret, perform_bind] at ha
    rcases hq : (answer q).run.perform s with ⟨r, s'⟩
    rw [hq] at ha
    cases r with
    | ok b => exact ih b (h.2 b trivial) ha
    | error e => cases ha

end Inquiry

/-- In the sessions of `inv`, the routine comes to the end that the inquiry comes to. -/
def Routine.Follows {α : Type} (x : Index) (limit : Nat) (inv : Session → Prop) (ρ : Routine α) (i : Inquiry α) :
    Prop :=
  ∀ s, inv s → x.Runs limit ρ.run s (i.run.perform s).1 (i.run.perform s).2

namespace Routine.Follows

open Inquiry (Keeps)

variable {x : Index} {limit : Nat} {pre : Act → Session → Prop} {inv : Session → Prop} {α β : Type}

theorem pure (a : α) : Follows x limit inv (pure a) (pure a) :=
  fun _ _ => .done

theorem act (a : Act) : Follows x limit inv (Routine.act a) (Inquiry.act a) :=
  fun _ _ => .act .done

variable {ρ : Routine α} {i : Inquiry α}

theorem bind {g : α → Routine β} {k : α → Inquiry β} (hi : Follows x limit inv ρ i) (hkeeps : Keeps pre inv i)
    (hg : ∀ s a, inv s → (i.run.perform s).1 = .ok a → Follows x limit inv (g a) (k a)) :
    Follows x limit inv (ρ >>= g) (i >>= k) := by
  intro s hs
  have hrun := hi s hs
  have hinv := hkeeps.perform hs
  rw [ExceptT.run_bind, Inquiry.perform_bind]
  rcases hr : i.run.perform s with ⟨r, s'⟩
  rw [hr] at hrun hinv
  cases r with
  | ok a => exact hrun.bind (hg s a hs (congrArg Prod.fst hr) s' hinv)
  | error e => exact hrun.bind .done

/-- What follows the answers to all questions follows every dialogue that asks them. -/
theorem interpret {Q : Type} [Questions Q] {moves : (q : Q) → Routine (Questions.Answer q)}
    {answer : (q : Q) → Inquiry (Questions.Answer q)} (hmoves : ∀ q, Follows x limit inv (moves q) (answer q))
    (hkeeps : ∀ q, Keeps pre inv (answer q)) (d : Dialogue Q α) :
    Follows x limit inv (d.interpret moves) (d.interpret answer) := by
  induction d with
  | done a => exact .pure a
  | ask q next ih => exact (hmoves q).bind (hkeeps q) fun _ a _ _ => ih a

theorem of_meets (h : ∀ s, inv s → i.run.Meets (fun _ _ => True) (fun r s' => x.Runs limit ρ.run s r s') s) :
    Follows x limit inv ρ i :=
  fun s hs => (h s hs).atEnd

theorem meets {s : Session} (h : Follows x limit inv ρ i) (hs : inv s) :
    i.run.Meets (fun _ _ => True) (fun r s' => x.Runs limit ρ.run s r s') s :=
  (Dialogue.meets_iff _ _).mpr ⟨fun _ _ => trivial, h s hs⟩

theorem resolve {node : NodeId} {i : Inquiry TypeSet} (h : Follows x limit inv (Routine.node x limit node) i) :
    Follows x limit inv (Routine.resolve node) i :=
  fun s hs => .resolve (h s hs) .done

theorem proceed {todo : List SweepStep} {i : Inquiry PUnit} (h : Follows x limit inv (Routine.steps x todo) i) :
    Follows x limit inv (Routine.proceed todo) i :=
  fun s hs => .proceed (h s hs) .done

/-- A node that is remembered or on the stack is answered alike; what is left is how a node is entered. -/
theorem remembered {node : NodeId} {i : Inquiry TypeSet}
    (h : ∀ s, inv s → node ∉ s.resolving → i.run.Meets (fun _ _ => True) (fun r s' => x.Runs limit
      (if limit ≤ s.stack.length then throw (.depthExceeded limit (x.forest.kind node).display)
        else Routine.framed x node : Routine TypeSet).run s r s') s) :
    Follows x limit inv (Routine.node x limit node) (Inquiry.remembered x.forest node i) := by
  refine of_meets fun s hs => Inquiry.remembered_watched trivial trivial trivial ?_ ?_ ?_ ?_
  · intro types hmemo
    refine .act_bind ?_
    simp only [Act.perform, hmemo]
    exact .done
  · intro hmemo hstack hk
    refine .act_bind ?_
    simp only [Act.perform, hmemo]
    refine .act_bind ?_
    simp only [Act.perform, List.contains_iff_mem.mpr hstack, hk, if_true]
    exact .done
  · intro hmemo hstack hk
    refine .act_bind ?_
    simp only [Act.perform, hmemo]
    refine .act_bind ?_
    simp only [Act.perform, List.contains_iff_mem.mpr hstack, hk, if_true, Bool.false_eq_true, if_false]
    exact .act_bind .done
  · intro hmemo hstack
    refine (h s hs hstack).mono fun r s' _ hrun => ?_
    refine .act_bind ?_
    simp only [Act.perform, hmemo]
    refine .act_bind ?_
    have hnot : s.resolving.contains node = false :=
      Bool.eq_false_iff.mpr fun hmem => hstack (List.contains_iff_mem.mp hmem)
    simp only [Act.perform, hnot, Bool.false_eq_true, if_false]
    exact .height_bind hrun

end Routine.Follows

end EventAtlas
