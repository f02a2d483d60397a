import EventAtlas.Proofs.Inference.Unbounded

/-!
# Inquiries leave the sweeps around them alone

An inquiry that is made while sweeps are under way may read ahead of them, but it does not end them, and the sweeps that
it begins itself are deeper on the stack. `Act.Confined` says this of an act and `Inquiry.resolveWithin_confined` of an
inquiry as a whole. So an inquiry that does not read ahead of the sweeps around it leaves nothing unsettled
(`Inquiry.settled_of_confined`), and a scope does not come to be swept inside of its own sweep
(`Inquiry.unswept_of_sweeping`).
-/

namespace EventAtlas

/-- The scopes are being swept, and all other sweeps began on a stack of at least so many nodes. -/
structure Sweeps.Above (base : Nat) (scopes : List NodeId) (sweeps : Sweeps) : Prop where
  all_there : ∀ scope ∈ scopes, scope ∈ sweeps.map (·.frame.scope)
  others_deep : ∀ w ∈ sweeps, base ≤ w.depth ∨ w.frame.scope ∈ scopes

theorem Sweeps.Above.cons {base : Nat} {scopes : List NodeId} {sweeps : Sweeps} (h : Above base scopes sweeps)
    {w : Sweep} (hw : base ≤ w.depth) : Above base scopes (w :: sweeps) :=
  ⟨fun scope hscope => List.mem_cons_of_mem _ (h.all_there scope hscope),
    List.forall_mem_cons.mpr ⟨.inl hw, h.others_deep⟩⟩

theorem Sweeps.above_self (base : Nat) (sweeps : Sweeps) : Above base (sweeps.map (·.frame.scope)) sweeps :=
  ⟨fun _ h => h, fun _ hw => .inr (List.mem_map_of_mem hw)⟩

/-- An act ends no sweep of these scopes, and if it reads ahead of a sweep, then of one of these or of one that began on
a stack of at least so many nodes. -/
structure Act.Confined (base : Nat) (scopes : List NodeId) (a : Act) (s : Session) : Prop where
  ahead : ∀ scope name, a = .readAhead scope name → ∀ w, Sweeps.find? s.sweeps scope = some w →
    base ≤ w.depth ∨ scope ∈ scopes
  ends : ∀ scope finished, a = .endSweep scope finished → scope ∉ scopes

/-- What an act does to the scopes that are swept. -/
theorem Act.swept_perform (a : Act) (s : Session) :
    (a.perform s).2.swept = s.swept ∨
      ∃ scope, a = .endSweep scope true ∧ (a.perform s).2.swept = scope :: s.swept := by
  have h := a.perform_makes s
  generalize (a.perform s).2 = t at h ⊢
  cases h with
  | ends scope finished =>
    cases finished with
    | true => exact .inr ⟨scope, rfl, rfl⟩
    | false => exact .inl rfl
  | _ => exact .inl rfl

namespace Session

/-- If something is unsettled, then only from this place on the stack on. -/
def UnsettledFrom (base : Nat) (s : Session) : Prop :=
  ∀ d, s.unsettledFrom = some d → base ≤ d

/-- None of the scopes counts as swept. -/
def Unswept (scopes : List NodeId) (s : Session) : Prop :=
  ∀ scope ∈ scopes, scope ∉ s.swept

end Session

namespace Inquiry

open Session

variable {limit base : Nat} {stack scopes : List NodeId} {sweeps : Sweeps} {s : Session}

theorem confined_granted (limit base : Nat) (scopes : List NodeId) :
    Act.Granted limit (fun stack sweeps => base ≤ stack.length ∧ sweeps.Above base scopes)
      (Act.Confined base scopes) where
  quiet ha _ := ⟨(by rintro _ _ rfl; cases ha), (by rintro _ _ rfl; cases ha)⟩
  ahead scope name hs hinner _ := by
    refine ⟨?_, nofun⟩
    rintro _ _ ⟨⟩ w hw
    have hscope : w.frame.scope = scope := by simpa using List.find?_some hw
    rw [← hscope]
    exact hinner.2.others_deep w (hs.sweeps_eq ▸ List.mem_of_find?_eq_some hw)
  ends finished hs hinner := by
    -- The sweep that ends is the innermost one, and no scope is swept twice at a time.
    have hnested := hs.bracketed.sweeps_nested
    rw [hs.sweeps_eq, Sweeps.nested_cons] at hnested
    refine ⟨nofun, ?_⟩
    rintro _ _ ⟨⟩ hmem
    exact hnested.1 (hinner.2.all_there _ hmem)
  enter _ _ _ := ⟨nofun, nofun⟩
  leave _ _ := ⟨nofun, nofun⟩
  push _ hinner := ⟨Nat.le_succ_of_le hinner.1, hinner.2⟩
  begins _ hinner := ⟨hinner.1, hinner.2.cons hinner.1⟩

/-- An inquiry ends no sweep that was under way when it began. -/
theorem resolveWithin_confined (x : Index) {room : Nat} (hroom : stack.length + room = limit) (sweeps : Sweeps)
    (h : base ≤ stack.length ∧ sweeps.Above base scopes) (node : NodeId) :
    Keeps (Act.Confined base scopes) (Rests limit stack sweeps) (resolveWithin x limit room node) :=
  resolveWithin_granted (confined_granted limit base scopes) x room node hroom h

/-! ## What follows -/

/-- An act that does not read ahead of the sweeps below leaves a mark on deeper places only. -/
theorem unsettledFrom_perform {a : Act} (hconfined : a.Confined base scopes s)
    (hahead : ∀ scope name, a = .readAhead scope name → Sweeps.contains s.sweeps scope = true → scope ∉ scopes)
    (h : s.UnsettledFrom base) : (a.perform s).2.UnsettledFrom base := by
  have hmakes := a.perform_makes s
  generalize (a.perform s).2 = t at hmakes ⊢
  intro d hd
  cases hmakes with
  | leave _ _ _ _ _ hmark =>
    obtain rfl | rfl := hmark
    · cases hd
    · exact h d hd
  | ahead scope name w hw =>
    simp only [unsettle, Option.some.injEq] at hd
    have hnot : scope ∉ scopes := hahead scope name rfl (by rw [Sweeps.contains, hw]; rfl)
    have hdeep : base ≤ w.depth := (hconfined.ahead scope name rfl w hw).resolve_right hnot
    cases hm : s.unsettledFrom with
    | none =>
      rw [hm] at hd
      exact hd ▸ hdeep
    | some m =>
      rw [hm] at hd
      exact hd ▸ Nat.le_min.mpr ⟨h m hm, hdeep⟩
  | _ => exact h d hd

/-- An inquiry that does not read ahead of the sweeps around it leaves nothing unsettled. -/
theorem settled_of_confined {α : Type} {i : Inquiry α}
    (hkeeps : Keeps (Act.Confined stack.length scopes) (Rests limit stack sweeps) i) (hs : Rests limit stack sweeps s)
    (hsettled : s.unsettledFrom = none)
    (hahead : ∀ e ∈ i.run.course s, ∀ scope name, e.1 = .readAhead scope name →
      Sweeps.contains e.2.sweeps scope = true → scope ∉ scopes) : (i.run.perform s).2.unsettledFrom = none := by
  obtain ⟨hconfined, hrests⟩ := (Dialogue.meets_iff _ _).mp (hkeeps s hs)
  have hmeets : i.run.Meets (fun a s => a.Confined stack.length scopes s ∧ ∀ scope name, a = .readAhead scope name →
      Sweeps.contains s.sweeps scope = true → scope ∉ scopes) (fun _ _ => True) s :=
    (Dialogue.meets_iff _ _).mpr ⟨fun e he => ⟨hconfined e he, hahead e he⟩, trivial⟩
  have hstart : s.UnsettledFrom stack.length := by
    rw [UnsettledFrom, hsettled]
    exact nofun
  have hdeep : (i.run.perform s).2.UnsettledFrom stack.length :=
    hmeets.invariant (fun a s ha => unsettledFrom_perform ha.1 ha.2) hstart
  cases hd : (i.run.perform s).2.unsettledFrom with
  | none => rfl
  | some d =>
    have hlt := (hrests.bracketed.unsettled_bounds d hd).2
    rw [hrests.stack_eq] at hlt
    exact absurd (hdeep d hd) (Nat.not_le_of_lt hlt)

theorem unswept_perform {a : Act} (hconfined : a.Confined base scopes s) (h : s.Unswept scopes) :
    (a.perform s).2.Unswept scopes := by
  intro scope hmem
  obtain hswept | ⟨other, rfl, hswept⟩ := a.swept_perform s
  · rw [hswept]
    exact h scope hmem
  · rw [hswept, List.mem_cons, not_or]
    refine ⟨?_, h scope hmem⟩
    rintro rfl
    exact hconfined.ends scope true rfl hmem

/-- The scopes that are being swept do not come to be swept inside. -/
theorem unswept_of_confined {α : Type} {i : Inquiry α} {inv : Session → Prop}
    (hkeeps : Keeps (Act.Confined base scopes) inv i) (hs : inv s) (h : s.Unswept scopes) :
    (i.run.perform s).2.Unswept scopes :=
  (hkeeps s hs).invariant (fun _ _ ha => unswept_perform ha) h

/-- A scope does not come to be swept inside of its own sweep. -/
theorem unswept_of_sweeping {x : Index} {room : Nat} {scope : NodeId} (hroom : stack.length + room = limit)
    (hs : Amid limit stack sweeps scope s) (h : scope ∉ s.swept) :
    scope ∉ (((Sweeping.scope x scope).interpret (answerSweep (resolveWithin x limit room))).run.perform s).2.swept := by
  have hkeeps : ∀ q, Keeps (Act.Confined 0 [scope]) (Amid limit stack sweeps scope)
      (answerSweep (resolveWithin x limit room) q) :=
    answerSweep_granted (confined_granted limit 0 [scope]) (resolveWithin_confined x hroom)
      fun v hv => ⟨Nat.zero_le _, by simp [hv], fun w _ => .inl (Nat.zero_le _)⟩
  exact unswept_of_confined (Keeps.interpret hkeeps (Sweeping.scope x scope)) hs (List.forall_mem_singleton.mpr h) scope
    List.mem_cons_self

end Inquiry

end EventAtlas
