import EventAtlas.Inference.Resolver

/-!
# The course of an inquiry

An inquiry is a dialogue of acts, so a run of it passes through one session after the other. `Dialogue.course` lists
the acts of a run, each with the session that it finds. Somebody who watches the run may take notes; `Dialogue.Watched`
says that a condition on session and notes holds at every act and another one at the end, and `Dialogue.Meets` says the
same without notes, which is a condition on the course (`Dialogue.meets_iff`).

A dialogue of other questions has no course of its own; `Dialogue.Gives` says what comes of it if the answers are right.
What is kept by the answers to all questions is kept by every dialogue that asks them (`Inquiry.Keeps.interpret`).
So a property of all strategies is proved once for the answers, without a look at any strategy.
-/

namespace EventAtlas

namespace Dialogue

variable {Q : Type} [Questions Q] {α β : Type}

@[simp] theorem pure_eq_done (a : α) : (pure a : Dialogue Q α) = done a := rfl

@[simp] theorem ask_bind (q : Q) (next : Questions.Answer q → Dialogue Q α) (g : α → Dialogue Q β) :
    ask q next >>= g = ask q fun a => next a >>= g := rfl

@[simp] theorem question_bind (q : Q) (g : Questions.Answer q → Dialogue Q β) :
    question q >>= g = ask q g := rfl

/-! ## Right answers -/

section Gives

variable {allowed : Q → Prop} {right : (q : Q) → Questions.Answer q → Prop}

/-- The dialogue asks what is allowed and, if all answers are right, ends with a result as `post` says. -/
def Gives (allowed : Q → Prop) (right : (q : Q) → Questions.Answer q → Prop) (post : α → Prop) : Dialogue Q α → Prop
  | done a => post a
  | ask q next => allowed q ∧ ∀ a, right q a → (next a).Gives allowed right post

theorem Gives.bind {post : α → Prop} {post' : β → Prop} {d : Dialogue Q α} {g : α → Dialogue Q β}
    (hd : d.Gives allowed right post) (hg : ∀ a, post a → (g a).Gives allowed right post') :
    (d >>= g).Gives allowed right post' := by
  induction d with
  | done a => exact hg a hd
  | ask q next ih => exact ⟨hd.1, fun a ha => ih a (hd.2 a ha)⟩

end Gives

/-! ## Courses -/

/-- The acts of a dialogue, each with the session that it finds. -/
def course : Dialogue Act α → Session → List (Act × Session)
  | done _, _ => []
  | ask act next, s => (act, s) :: (next (act.perform s).1).course (act.perform s).2

variable {ρ : Type} {note : Act → Session → ρ → ρ}

/-- Every act of the dialogue finds a session and notes about the acts before as `pre` says, and the end is as `post`
says. -/
def Watched (note : Act → Session → ρ → ρ) (pre : Act → Session → ρ → Prop) (post : α → Session → ρ → Prop) :
    Dialogue Act α → Session → ρ → Prop
  | done a, s, notes => post a s notes
  | ask act next, s, notes =>
    pre act s notes ∧ (next (act.perform s).1).Watched note pre post (act.perform s).2 (note act s notes)

/-- Every act of the dialogue finds a session as `pre` says, and the end is as `post` says. -/
abbrev Meets (pre : Act → Session → Prop) (post : α → Session → Prop) (d : Dialogue Act α) (s : Session) : Prop :=
  d.Watched (fun _ _ (_ : PUnit) => ⟨⟩) (fun act s _ => pre act s) (fun a s _ => post a s) s ⟨⟩

section Watched

variable {pre : Act → Session → ρ → Prop} {post : α → Session → ρ → Prop} {d : Dialogue Act α} {s : Session} {notes : ρ}

@[simp] theorem watched_ask (act : Act) (next : act.Answer → Dialogue Act α) (s : Session) (notes : ρ) :
    (ask act next).Watched note pre post s notes ↔
      pre act s notes ∧ (next (act.perform s).1).Watched note pre post (act.perform s).2 (note act s notes) := Iff.rfl

theorem perform_ask (act : Act) (next : act.Answer → Dialogue Act α) (s : Session) :
    (ask act next).perform s = (next (act.perform s).1).perform (act.perform s).2 := rfl

/-- A dialogue and what follows it are judged one after the other. -/
theorem watched_bind {post : β → Session → ρ → Prop} (d : Dialogue Act α) (g : α → Dialogue Act β) (s : Session)
    (notes : ρ) :
    (d >>= g).Watched note pre post s notes ↔
      d.Watched note pre (fun a s notes => (g a).Watched note pre post s notes) s notes := by
  induction d generalizing s notes with
  | done a => exact Iff.rfl
  | ask act next ih => rw [ask_bind, watched_ask, watched_ask, ih]

variable (h : d.Watched note pre post s notes)
include h

theorem Watched.imp {pre' : Act → Session → ρ → Prop} {post' : α → Session → ρ → Prop}
   
    (hpre : ∀ act s notes, pre act s notes → pre' act s notes)
    (hpost : ∀ a s notes, post a s notes → post' a s notes) : d.Watched note pre' post' s notes := by
  induction d generalizing s notes with
  | done a => exact hpost a s notes h
  | ask act next ih => exact ⟨hpre act s notes h.1, ih _ h.2⟩

theorem Watched.mono {post' : α → Session → ρ → Prop} (hpost : ∀ a s notes, post a s notes → post' a s notes) :
    d.Watched note pre post' s notes :=
  h.imp (fun _ _ _ h => h) hpost

/-- The end of a watched dialogue, with the notes that were taken along the course. -/
theorem Watched.atEnd :
    post (d.perform s).1 (d.perform s).2 ((d.course s).foldl (fun notes e => note e.1 e.2 notes) notes) := by
  induction d generalizing s notes with
  | done a => exact h
  | ask act next ih => exact ih _ h.2

end Watched

section Meets

variable {pre : Act → Session → Prop} {post : α → Session → Prop}

theorem meets_ask (act : Act) (next : act.Answer → Dialogue Act α) (s : Session) :
    (ask act next).Meets pre post s ↔ pre act s ∧ (next (act.perform s).1).Meets pre post (act.perform s).2 := Iff.rfl

/-- What `Meets` says, in terms of the course and the end. -/
theorem meets_iff (d : Dialogue Act α) (s : Session) :
    d.Meets pre post s ↔ (∀ e ∈ d.course s, pre e.1 e.2) ∧ post (d.perform s).1 (d.perform s).2 := by
  induction d generalizing s with
  | done a => simp [course, Meets, Watched, perform]
  | ask act next ih =>
    rw [meets_ask, ih, course, perform_ask]
    simp only [List.mem_cons, forall_eq_or_imp, and_assoc]

/-- What every act keeps, where it finds the session as `pre` says, is kept by the dialogue. -/
theorem Meets.invariant {inv : Session → Prop} {d : Dialogue Act α} {s : Session} (h : d.Meets pre post s)
    (hstep : ∀ act s, pre act s → inv s → inv (act.perform s).2) (hs : inv s) : inv (d.perform s).2 := by
  induction d generalizing s with
  | done a => exact hs
  | ask act next ih => exact ih _ h.2 (hstep act s h.1 hs)

end Meets

end Dialogue

namespace Inquiry

variable {α β : Type} {ρ : Type} {note : Act → Session → ρ → ρ} {pre : Act → Session → ρ → Prop}

theorem watched_bind {post : Except ResolveError β → Session → ρ → Prop} (i : Inquiry α) (g : α → Inquiry β)
    (s : Session) (notes : ρ) :
    (i >>= g).run.Watched note pre post s notes ↔
      i.run.Watched note pre (fun r s notes => match r with
        | .ok a => (g a).run.Watched note pre post s notes
        | .error e => post (.error e) s notes) s notes := by
  rw [ExceptT.run_bind, Dialogue.watched_bind]
  constructor
  · intro h
    refine h.mono fun r s notes h => ?_
    cases r <;> exact h
  · intro h
    refine h.mono fun r s notes h => ?_
    cases r <;> exact h

theorem watched_act {post : Except ResolveError α → Session → ρ → Prop} (a : Act) (g : a.Answer → Inquiry α)
    (s : Session) (notes : ρ) :
    (act a >>= g).run.Watched note pre post s notes ↔
      pre a s notes ∧ (g (a.perform s).1).run.Watched note pre post (a.perform s).2 (note a s notes) := Iff.rfl

/-! ## What is kept -/

section Keeps

variable {pre : Act → Session → Prop} {inv : Session → Prop}

/-- The inquiry keeps a condition on sessions, whether it ends with a result or with an error. -/
def Keeps (pre : Act → Session → Prop) (inv : Session → Prop) (i : Inquiry α) : Prop :=
  ∀ s, inv s → i.run.Meets pre (fun _ s => inv s) s

theorem keeps_pure (a : α) : Keeps pre inv (pure a : Inquiry α) :=
  fun _ h => h

theorem Keeps.bind {i : Inquiry α} {g : α → Inquiry β} (hi : Keeps pre inv i) (hg : ∀ a, Keeps pre inv (g a)) :
    Keeps pre inv (i >>= g) := by
  intro s hs
  rw [Dialogue.Meets, watched_bind]
  refine (hi s hs).mono fun r s _ hs => ?_
  cases r with
  | ok a => exact hg a s hs
  | error e => exact hs

/-- One act keeps a condition if it is allowed there and what it leaves satisfies the condition. -/
theorem keeps_act {a : Act} (hpre : ∀ s, inv s → pre a s) (hinv : ∀ s, inv s → inv (a.perform s).2) :
    Keeps pre inv (act a) :=
  fun s hs => ⟨hpre s hs, hinv s hs⟩

/-- What all answers keep is kept by every dialogue. -/
theorem Keeps.interpret {Q : Type} [Questions Q] {answer : (q : Q) → Inquiry (Questions.Answer q)}
    (h : ∀ q, Keeps pre inv (answer q)) (d : Dialogue Q α) : Keeps pre inv (d.interpret answer) := by
  induction d with
  | done a => exact keeps_pure a
  | ask q next ih => exact (h q).bind ih

end Keeps

/-! ## The answers -/

variable {s : Session} {notes : ρ} {post : Except ResolveError TypeSet → Session → ρ → Prop} {node : NodeId}

/-- An inquiry for a node looks at what is remembered, then at the stack. -/
theorem remembered_watched {f : Forest} {resolve : Inquiry TypeSet} (hlookUp : pre (.lookUp node) s notes)
    (hresolving : pre (.isResolving node) s (note (.lookUp node) s notes))
    (hcycle : pre (.cycle node) s (note (.isResolving node) s (note (.lookUp node) s notes)))
    (hit : ∀ types, s.memo.find? node = some types → post (.ok types) s (note (.lookUp node) s notes))
    (cut : s.memo.find? node = none → node ∈ s.resolving → addsNothing (f.kind node) = true →
      post (.ok {}) s (note (.isResolving node) s (note (.lookUp node) s notes)))
    (circular : s.memo.find? node = none → node ∈ s.resolving → addsNothing (f.kind node) = false →
      post (.error (.circular ((s.cycle node).map fun n => (f.kind n).display))) s
        (note (.cycle node) s (note (.isResolving node) s (note (.lookUp node) s notes))))
    (open_ : s.memo.find? node = none → node ∉ s.resolving →
      resolve.run.Watched note pre post s (note (.isResolving node) s (note (.lookUp node) s notes))) :
    (remembered f node resolve).run.Watched note pre post s notes := by
  rw [remembered, watched_act]
  refine ⟨hlookUp, ?_⟩
  cases hmemo : s.memo.find? node with
  | some types =>
    simp only [Act.perform, hmemo]
    exact hit types hmemo
  | none =>
    simp only [Act.perform, hmemo]
    rw [watched_act]
    refine ⟨hresolving, ?_⟩
    by_cases hstack : node ∈ s.resolving
    · have hcontains : (Act.isResolving node).perform s = (true, s) := by simp [Act.perform, hstack]
      rw [hcontains]
      cases hk : addsNothing (f.kind node) with
      | true =>
        simp only [if_true]
        exact cut hmemo hstack hk
      | false =>
        simp only [if_true, Bool.false_eq_true, if_false]
        rw [watched_act]
        exact ⟨hcycle, circular hmemo hstack hk⟩
    · have hcontains : (Act.isResolving node).perform s = (false, s) := by simp [Act.perform, hstack]
      rw [hcontains]
      simp only [Bool.false_eq_true, if_false]
      exact open_ hmemo hstack

/-- A node is resolved between the acts that put it on the stack and take it off again. -/
theorem framed_watched {f : Forest} {resolve : Inquiry TypeSet} :
    (framed f node resolve).run.Watched note pre post s notes ↔
      pre (.enter node) s notes ∧
        resolve.run.Watched note pre (fun r s notes =>
          let result := r.map (orUnknown (f.kind node))
          pre (.leave node result.toOption) s notes ∧
            post result (s.leave node result.toOption) (note (.leave node result.toOption) s notes))
          (s.push node) (note (.enter node) s notes) := by
  rw [framed, ExceptT.run_mk, Dialogue.question_bind, Dialogue.watched_ask, Dialogue.watched_bind]
  rfl

/-- A scope is swept between the acts that begin and end its sweep, or not at all. -/
theorem sweep_watched {post : Except ResolveError PUnit → Session → ρ → Prop} {x : Index}
    {types : NodeId → Inquiry TypeSet} {scope : NodeId} (hbegin : pre (.beginSweep scope) s notes)
    (skip : (s.beginSweep scope).1 = false →
      post (.ok ()) (s.beginSweep scope).2 (note (.beginSweep scope) s notes))
    (go : (s.beginSweep scope).1 = true →
      ((Sweeping.scope x scope).interpret (answerSweep types)).run.Watched note pre
        (fun r s notes => pre (.endSweep scope r.isOk) s notes ∧
          post r (s.endSweep scope r.isOk) (note (.endSweep scope r.isOk) s notes))
        (s.beginSweep scope).2 (note (.beginSweep scope) s notes)) :
    (sweep x types scope).run.Watched note pre post s notes := by
  refine ⟨hbegin, ?_⟩
  change Dialogue.Watched note pre post (if (s.beginSweep scope).1 then _ else _) _ _
  split
  case isTrue hb =>
    rw [Dialogue.watched_bind]
    exact go hb
  case isFalse hb => exact skip (Bool.eq_false_iff.mpr hb)

/-- A variable is read ahead of the sweep of its scope, or after the scope was swept. -/
theorem readVariable_watched {x : Index} {types : NodeId → Inquiry TypeSet} {scope : NodeId} {name : String}
    (hahead : pre (.readAhead scope name) s notes)
    (ahead : ∀ found, (s.readAhead scope name).1 = some found →
      post (.ok found) (s.readAhead scope name).2 (note (.readAhead scope name) s notes))
    (after : (s.readAhead scope name).1 = none →
      (sweep x types scope).run.Watched note pre (fun r s notes => match r with
        | .ok _ => pre (.readBehind node scope) s notes ∧
          post (.ok (s.readBehind node)) s (note (.readBehind node scope) s notes)
        | .error e => post (.error e) s notes)
        (s.readAhead scope name).2 (note (.readAhead scope name) s notes)) :
    (readVariable x types node scope name).run.Watched note pre post s notes := by
  rw [readVariable, watched_act]
  refine ⟨hahead, ?_⟩
  simp only [Act.perform]
  cases hr : (s.readAhead scope name).1 with
  | some found => exact ahead found hr
  | none =>
    rw [watched_bind]
    refine (after hr).mono fun r s notes h => ?_
    cases r <;> exact h

section Keeps

variable {pre : Act → Session → Prop} {inv : Session → Prop} {node : NodeId}

/-- Looking at what is remembered and at the stack changes nothing. -/
theorem Keeps.remembered {f : Forest} {i : Inquiry TypeSet} (h : Keeps pre inv i)
    (hpre : ∀ s, inv s → pre (.lookUp node) s ∧ pre (.isResolving node) s ∧ pre (.cycle node) s) :
    Keeps pre inv (remembered f node i) := by
  intro s hs
  obtain ⟨hlookUp, hresolving, hcycle⟩ := hpre s hs
  exact remembered_watched hlookUp hresolving hcycle (fun _ _ => hs) (fun _ _ _ => hs) (fun _ _ _ => hs)
    fun _ _ => h s hs

theorem Keeps.readVariable {x : Index} {types : NodeId → Inquiry TypeSet} {scope : NodeId} {name : String}
    (hahead : Keeps pre inv (act (.readAhead scope name))) (hsweep : Keeps pre inv (sweep x types scope))
    (hbehind : Keeps pre inv (act (.readBehind node scope))) :
    Keeps pre inv (readVariable x types node scope name) := by
  refine hahead.bind fun found => ?_
  cases found with
  | some found => exact keeps_pure found
  | none => exact hsweep.bind fun _ => hbehind

/-- What the resolution of a node keeps whenever that of the others keeps it is kept. -/
theorem Keeps.resolveWithin {x : Index}
    (hpre : ∀ node s, inv s → pre (.lookUp node) s ∧ pre (.isResolving node) s ∧ pre (.cycle node) s)
    (hframed : ∀ types, (∀ n, Keeps pre inv (types n)) → ∀ node,
      Keeps pre inv (framed x.forest node ((Strategy.dispatch x node).interpret (answer x types))))
    (limit room : Nat) (node : NodeId) : Keeps pre inv (resolveWithin x limit room node) := by
  induction room generalizing node with
  | zero => exact .remembered (fun _ hs => hs) (hpre node)
  | succ room ih => exact (hframed _ ih node).remembered (hpre node)

theorem Keeps.framed {f : Forest} {i : Inquiry TypeSet} (henter : Keeps pre inv (act (.enter node)))
    (h : Keeps pre inv i) (hleave : ∀ types, Keeps pre inv (act (.leave node types))) :
    Keeps pre inv (framed f node i) := by
  intro s hs
  obtain ⟨hpre, hentered⟩ := henter s hs
  exact framed_watched.mpr ⟨hpre, (h _ hentered).mono fun r s _ hs => hleave _ s hs⟩

theorem Keeps.sweep {x : Index} {types : NodeId → Inquiry TypeSet} {scope : NodeId}
    (hbegin : Keeps pre inv (act (.beginSweep scope)))
    (h : Keeps pre inv ((Sweeping.scope x scope).interpret (answerSweep types)))
    (hend : ∀ finished, Keeps pre inv (act (.endSweep scope finished))) : Keeps pre inv (sweep x types scope) := by
  intro s hs
  obtain ⟨hpre, hbegun⟩ := hbegin s hs
  exact sweep_watched hpre (fun _ => hbegun) fun _ => (h _ hbegun).mono fun r s _ hs => hend r.isOk s hs

end Keeps

end Inquiry

/-! ## Resolutions one after the other -/

/-- The session after nodes were resolved one after the other, with results or errors. -/
def Index.resolveAll (x : Index) (limit : Nat) (nodes : List NodeId) (s : Session) : Session :=
  nodes.foldl (fun s node => ((x.resolve limit node).run.run s).2) s

theorem Index.resolveAll_append (x : Index) (limit : Nat) (before after : List NodeId) (s : Session) :
    x.resolveAll limit (before ++ after) s = x.resolveAll limit after (x.resolveAll limit before s) :=
  List.foldl_append

/-- What every resolution keeps is kept by several of them. -/
theorem Index.resolveAll_invariant {x : Index} {limit : Nat} (inv : Session → Prop)
    (hstep : ∀ s node, inv s → inv ((x.resolve limit node).run.run s).2) (nodes : List NodeId) {s : Session}
    (hs : inv s) : inv (x.resolveAll limit nodes s) := by
  induction nodes generalizing s with
  | nil => exact hs
  | cons node rest ih => exact ih (hstep s node hs)

/-- The types of a node after other nodes were resolved, or why it has none. -/
def Index.answerAfter (x : Index) (limit : Nat) (before : List NodeId) (node : NodeId) :
    Except ResolveError TypeSet :=
  ((x.resolve limit node).run.run (x.resolveAll limit before {})).1

/-- The names of the types of a node after other nodes were resolved, if it has types. -/
def Index.namesAfter? (x : Index) (limit : Nat) (before : List NodeId) (node : NodeId) : Option (List String) :=
  (x.answerAfter limit before node).toOption.map TypeSet.names

/-- Why a node has no types after other nodes were resolved, if it has none. -/
def Index.failureAfter? (x : Index) (limit : Nat) (before : List NodeId) (node : NodeId) : Option ResolveError :=
  match x.answerAfter limit before node with
  | .error e => some e
  | .ok _ => none

theorem Index.answerAfter_of_namesAfter? {x : Index} {limit : Nat} {before : List NodeId} {node : NodeId}
    {names : List String} (h : x.namesAfter? limit before node = some names) :
    ∃ types, x.answerAfter limit before node = .ok types ∧ types.names = names := by
  unfold namesAfter? at h
  cases hr : x.answerAfter limit before node with
  | error e =>
    rw [hr] at h
    cases h
  | ok types =>
    rw [hr] at h
    exact ⟨types, rfl, Option.some.inj h⟩

/-- The index of a program that is one file. -/
def Index.ofProgram (text : String) : Index :=
  (Index.ofSources [("a.php", text.toUTF8)]).toOption.getD default

end EventAtlas
