import EventAtlas.Proofs.Inference.Unbounded

/-!
# Parts of a run

What an inquiry comes to is said part by part: a node that is looked up, a node in its frame, the sweep of a scope, a
variable that is read (`remembered_perform`, `readVariable_perform`; frames and sweeps have theirs with the laws of
inquiries). What holds at every act of an inquiry holds at every act of its parts (`Inquiry.Passes`).
-/

namespace EventAtlas

namespace Inquiry

variable {α β : Type} {pre : Act → Session → Prop}

/-- Every act of the inquiry finds a session as `pre` says. -/
def Passes (pre : Act → Session → Prop) (i : Inquiry α) (s : Session) : Prop :=
  ∀ e ∈ i.run.course s, pre e.1 e.2

variable {s : Session}

theorem passes_iff {i : Inquiry α} : i.Passes pre s ↔ i.run.Meets pre (fun _ _ => True) s := by
  rw [Dialogue.meets_iff, and_true]
  rfl

theorem Passes.of_bind {i : Inquiry α} {g : α → Inquiry β} (h : (i >>= g).Passes pre s) :
    i.Passes pre s ∧ ∀ a t, i.run.perform s = (.ok a, t) → (g a).Passes pre t := by
  rw [passes_iff, Dialogue.Meets, watched_bind] at h
  refine ⟨passes_iff.mpr (h.mono fun _ _ _ _ => trivial), fun a t hrun => passes_iff.mpr ?_⟩
  have hend := h.atEnd
  rw [hrun] at hend
  exact hend

theorem act_perform (a : Act) (g : a.Answer → Inquiry α) (s : Session) :
    (act a >>= g).run.perform s = (g (a.perform s).1).run.perform (a.perform s).2 := rfl

theorem Passes.of_act {a : Act} {g : a.Answer → Inquiry α} (h : (act a >>= g).Passes pre s) :
    pre a s ∧ (g (a.perform s).1).Passes pre (a.perform s).2 := by
  rw [passes_iff, Dialogue.Meets, watched_act] at h
  exact ⟨h.1, passes_iff.mpr h.2⟩

theorem remembered_perform (f : Forest) (node : NodeId) (i : Inquiry TypeSet) (s : Session) :
    (remembered f node i).run.perform s =
      match s.memo.find? node with
      | some types => (.ok types, s)
      | none =>
        if s.resolving.contains node then
          if addsNothing (f.kind node) then (.ok {}, s)
          else (.error (.circular ((s.cycle node).map fun n => (f.kind n).display)), s)
        else i.run.perform s := by
  rw [remembered, act_perform]
  simp only [Act.perform]
  cases s.memo.find? node with
  | some types => rfl
  | none =>
    dsimp only
    rw [act_perform]
    cases hc : s.resolving.contains node with
    | true =>
      have hasked : (Act.isResolving node).perform s = (true, s) := Prod.ext hc rfl
      rw [hasked]
      simp only [if_true]
      split <;> rfl
    | false =>
      have hasked : (Act.isResolving node).perform s = (false, s) := Prod.ext hc rfl
      rw [hasked]
      rfl

theorem Passes.of_remembered {f : Forest} {node : NodeId} {i : Inquiry TypeSet}
    (h : (remembered f node i).Passes pre s) (hmemo : s.memo.find? node = none)
    (hstack : s.resolving.contains node = false) : i.Passes pre s := by
  have hrest := h.of_act.2
  simp only [Act.perform, hmemo] at hrest
  have hrest' := hrest.of_act.2
  simp only [Act.perform, hstack] at hrest'
  exact hrest'

theorem Passes.of_framed {f : Forest} {node : NodeId} {i : Inquiry TypeSet} (h : (framed f node i).Passes pre s) :
    i.Passes pre (s.push node) ∧
      let found := (i.run.perform (s.push node)).1.map (orUnknown (f.kind node))
      pre (.leave node found.toOption) (i.run.perform (s.push node)).2 := by
  rw [passes_iff, Dialogue.Meets, framed_watched] at h
  obtain ⟨hcourse, hend⟩ := (Dialogue.meets_iff _ _).mp h.2
  exact ⟨hcourse, hend.1⟩

theorem Passes.of_sweep {x : Index} {types : NodeId → Inquiry TypeSet} {scope : NodeId}
    (h : (sweep x types scope).Passes pre s) (hbegun : (s.beginSweep scope).1 = true) :
    let i := (Sweeping.scope x scope).interpret (answerSweep types)
    i.Passes pre (s.beginSweep scope).2 ∧
      pre (.endSweep scope (i.run.perform (s.beginSweep scope).2).1.isOk) (i.run.perform (s.beginSweep scope).2).2 := by
  have hrest := (passes_iff.mp h).2
  change Dialogue.Meets pre _ (if (s.beginSweep scope).1 then _ else _) _ at hrest
  rw [if_pos hbegun, Dialogue.Meets, Dialogue.watched_bind] at hrest
  obtain ⟨hcourse, hend⟩ := (Dialogue.meets_iff _ _).mp hrest
  exact ⟨hcourse, hend.1⟩

theorem readVariable_perform (x : Index) (types : NodeId → Inquiry TypeSet) (node scope : NodeId) (name : String)
    (s : Session) :
    (readVariable x types node scope name).run.perform s =
      match (s.readAhead scope name).1 with
      | some found => (.ok found, (s.readAhead scope name).2)
      | none =>
        match (sweep x types scope).run.perform (s.readAhead scope name).2 with
        | (.ok _, t) => (.ok (t.readBehind node), t)
        | (.error e, t) => (.error e, t) := by
  rw [readVariable, act_perform]
  simp only [Act.perform]
  cases (s.readAhead scope name).1 with
  | some found => rfl
  | none =>
    dsimp only
    rw [perform_bind]
    rcases (sweep x types scope).run.perform (s.readAhead scope name).2 with ⟨r, t⟩
    cases r <;> rfl

end Inquiry

end EventAtlas
