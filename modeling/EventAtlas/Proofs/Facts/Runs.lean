import EventAtlas.Facts.Extraction
import EventAtlas.Proofs.Inference.Finality

/-!
# Runs in a session

Queries and extraction ask for the types of nodes, one after the other, in one session. Between two questions nothing is
under way, and what was answered is remembered until the end. So what a program has learnt from an answer can be said of
every later session, in particular of the one that extraction leaves: `Session.Runs` states results in that form, and the
rules below follow the ways in which programs are put together.
-/

namespace EventAtlas

namespace Session

variable {s t u : Session}

/-- Nothing is under way in `t`, and it remembers what `s` does. -/
structure Later (s t : Session) : Prop where
  idle : t.Idle
  memo : ∀ {node types}, s.memo.find? node = some types → t.memo.find? node = some types

theorem Later.refl (h : s.Idle) : s.Later s := ⟨h, id⟩

theorem Later.trans (h : s.Later t) (h' : t.Later u) : s.Later u := ⟨h'.idle, fun hs => h'.memo (h.memo hs)⟩

variable {ε α β : Type} {m : ExceptT ε (StateM Session) α}

/-- The program runs from `s` to a later session; if it has a result, the result and that session satisfy `post`. -/
def Runs (s : Session) (m : ExceptT ε (StateM Session) α) (post : α → Session → Prop) : Prop :=
  s.Later (m.run.run s).2 ∧ ∀ a, (m.run.run s).1 = .ok a → post a (m.run.run s).2

namespace Runs

variable {k : α → ExceptT ε (StateM Session) β} {mid : α → Session → Prop} {post : β → Session → Prop}

protected theorem pure {a : α} (h : s.Idle) (hmid : mid a s) : s.Runs (pure a : ExceptT ε (StateM Session) α) mid := by
  refine ⟨.refl h, ?_⟩
  intro b hb
  cases hb
  exact hmid

protected theorem throw {e : ε} (h : s.Idle) : s.Runs (throw e : ExceptT ε (StateM Session) α) mid :=
  ⟨.refl h, nofun⟩

theorem run_bind (m : ExceptT ε (StateM Session) α) (k : α → ExceptT ε (StateM Session) β) (s : Session) :
    (m >>= k).run.run s = match m.run.run s with
      | (.ok a, t) => (k a).run.run t
      | (.error e, t) => (.error e, t) := by
  simp only [bind, ExceptT.bind, ExceptT.mk, ExceptT.run, StateT.bind, StateT.run, ExceptT.bindCont]
  cases m s with
  | mk r t => cases r <;> rfl

protected theorem bind (h : s.Runs m mid) (hk : ∀ a t, s.Later t → mid a t → t.Runs (k a) post) : s.Runs (m >>= k) post := by
  obtain ⟨hlater, hmid⟩ := h
  rw [Runs, run_bind]
  cases hrun : m.run.run s with
  | mk r t =>
    rw [hrun] at hlater hmid
    cases r with
    | error e => exact ⟨hlater, nofun⟩
    | ok a =>
      obtain ⟨hlater', hpost⟩ := hk a t hlater (hmid a rfl)
      exact ⟨hlater.trans hlater', hpost⟩

protected theorem imp {mid' : α → Session → Prop} (h : s.Runs m mid) (himp : ∀ a t, s.Later t → mid a t → mid' a t) :
    s.Runs m mid' :=
  ⟨h.1, fun a ha => himp a _ h.1 (h.2 a ha)⟩

/-- The types of a node are remembered for it. -/
protected theorem resolve (x : Index) (limit : Nat) (node : NodeId) (h : s.Idle) :
    s.Runs (x.resolve limit node) fun types t => t.memo.find? node = some types := by
  have hrun := x.resolve_idle limit node h
  refine ⟨⟨hrun.atEnd, ?_⟩, ?_⟩
  · intro n types hn
    have hstays : s.Remembers n types := ⟨hn, by rw [h.stack_eq]; exact List.not_mem_nil⟩
    exact (hrun.invariant (fun _ _ => Remembers.perform) hstays).1
  · exact (Inquiry.resolveWithin_remembers x limit node h).atEnd

/-- An inference that the limit of the stack may end: with a result, what holds of it. -/
protected theorem attempt {r : Resolve α} (h : s.Runs r mid) :
    s.Runs (Extract.attempt r) fun out t => ∀ a, out = .ok a → mid a t := by
  obtain ⟨hlater, hmid⟩ := h
  have hrun : (Extract.attempt r).run.run s = Extract.attempt r s := rfl
  rw [Runs, hrun, Extract.attempt]
  cases hr : r.run.run s with
  | mk out t =>
    rw [hr] at hlater hmid
    cases out with
    | ok a =>
      refine ⟨hlater, ?_⟩
      rintro _ ⟨⟩ b ⟨⟩
      exact hmid a rfl
    | error e =>
      cases e with
      | circular chain =>
        refine ⟨hlater, ?_⟩
        rintro _ ⟨⟩
      | depthExceeded limit node =>
        refine ⟨hlater, ?_⟩
        rintro _ ⟨⟩ b ⟨⟩

end Runs

end Session

theorem eq_ok_of_toOption {ε α : Type} {r : Except ε α} {a : α} (h : r.toOption = some a) : r = .ok a := by
  cases r with
  | error e => cases h
  | ok b => exact congrArg Except.ok (Option.some.inj h)

/-- The types that a session gives for a node. -/
def Index.answerIn (x : Index) (limit : Nat) (s : Session) (node : NodeId) : Except ResolveError TypeSet :=
  ((x.resolve limit node).run.run s).1

/-- They are those that it remembers, if it does. -/
theorem Index.answerIn_of_memo (x : Index) (limit : Nat) {s : Session} {node : NodeId} {types : TypeSet}
    (h : s.memo.find? node = some types) : x.answerIn limit s node = .ok types :=
  congrArg Prod.fst (Inquiry.resolveWithin_of_memo x limit limit h)

end EventAtlas
