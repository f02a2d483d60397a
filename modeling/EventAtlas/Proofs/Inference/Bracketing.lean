import EventAtlas.Proofs.Inference.Course
import EventAtlas.Proofs.Sorted

/-!
# What is under way is bracketed

While a node is resolved, nodes are put on the stack and taken off again, and sweeps begin and end. `Session.Bracketed`
says how these nest. Every node of a stack is entered once, each sweep begins inside the frame of the node that asked
for it, and the mark of what is unsettled stays inside the frames that it concerns.

An inquiry, with a result or with an error, ends with the stack and the sweeps with which it began
(`Inquiry.resolveWithin_rests`). So a resolution that begins with an empty stack leaves nothing under way, whatever was
resolved before.
-/

namespace EventAtlas

open List

/-- Sweeps of different scopes began one inside the other, on a stack of at most so many nodes. -/
structure Sweeps.Nested (depth : Nat) (sweeps : Sweeps) : Prop where
  scopes_nodup : (sweeps.map (·.frame.scope)).Nodup
  /-- The innermost sweep, which comes first, began deepest. -/
  depths_decrease : sweeps.Pairwise fun inner outer => outer.depth < inner.depth
  depth_bounds : ∀ w ∈ sweeps, 1 ≤ w.depth ∧ w.depth ≤ depth

theorem Sweeps.nested_cons {depth : Nat} {w : Sweep} {sweeps : Sweeps} :
    Nested depth (w :: sweeps) ↔
      w.frame.scope ∉ sweeps.map (·.frame.scope) ∧ (∀ outer ∈ sweeps, outer.depth < w.depth) ∧
        (1 ≤ w.depth ∧ w.depth ≤ depth) ∧ Nested depth sweeps := by
  constructor
  · rintro ⟨hnodup, hdecrease, hbounds⟩
    rw [map_cons, nodup_cons] at hnodup
    rw [pairwise_cons] at hdecrease
    rw [forall_mem_cons] at hbounds
    exact ⟨hnodup.1, hdecrease.1, hbounds.1, hnodup.2, hdecrease.2, hbounds.2⟩
  · rintro ⟨hscope, hdepth, hbound, hnodup, hdecrease, hbounds⟩
    exact ⟨nodup_cons.mpr ⟨hscope, hnodup⟩, pairwise_cons.mpr ⟨hdepth, hdecrease⟩,
      forall_mem_cons.mpr ⟨hbound, hbounds⟩⟩

namespace Session

/-- What is under way in a session. -/
def underway (s : Session) : List NodeId × List NodeId × Sweeps × Option Nat :=
  (s.stack, s.resolving, s.sweeps, s.unsettledFrom)

/-- The frames of nodes and sweeps nest. -/
structure Bracketed (limit : Nat) (s : Session) : Prop where
  stack_nodup : s.stack.Nodup
  stack_length : s.stack.length ≤ limit
  resolving_eq : s.resolving = s.stack
  sweeps_nested : s.sweeps.Nested s.stack.length
  unsettled_bounds : ∀ d, s.unsettledFrom = some d → 1 ≤ d ∧ d < s.stack.length

/-- Nothing is under way. -/
structure Idle (s : Session) : Prop where
  stack_eq : s.stack = []
  resolving_eq : s.resolving = []
  sweeps_eq : s.sweeps = []
  unsettledFrom_eq : s.unsettledFrom = none

/-- The session is bracketed, with this stack and these sweeps. -/
structure Rests (limit : Nat) (stack : List NodeId) (sweeps : Sweeps) (s : Session) : Prop where
  bracketed : s.Bracketed limit
  stack_eq : s.stack = stack
  sweeps_eq : s.sweeps = sweeps

variable {limit : Nat} {stack : List NodeId} {sweeps : Sweeps} {s s' : Session}

/-- The sweep of a scope, begun on this stack, is under way inside of these sweeps. -/
def Amid (limit : Nat) (stack : List NodeId) (sweeps : Sweeps) (scope : NodeId) (s : Session) : Prop :=
  ∃ v : Variables, v.scope = scope ∧ Rests limit stack (⟨v, stack.length⟩ :: sweeps) s

theorem Rests.of_underway (h : Rests limit stack sweeps s) (e : s'.underway = s.underway) :
    Rests limit stack sweeps s' := by
  simp only [underway, Prod.mk.injEq] at e
  obtain ⟨hstack, hresolving, hsweeps, hunsettled⟩ := e
  obtain ⟨⟨_, _, _, _, _⟩, _, _⟩ := h
  constructor
  · constructor <;> simpa only [hstack, hresolving, hsweeps, hunsettled]
  · rwa [hstack]
  · rwa [hsweeps]

theorem rests_nil_iff_idle : Rests limit [] [] s ↔ s.Idle := by
  constructor
  · intro h
    refine ⟨h.stack_eq, h.bracketed.resolving_eq.trans h.stack_eq, h.sweeps_eq, ?_⟩
    cases hd : s.unsettledFrom with
    | none => rfl
    | some d =>
      have bounds := h.bracketed.unsettled_bounds d hd
      rw [h.stack_eq, length_nil] at bounds
      omega
  · intro h
    obtain ⟨hstack, hresolving, hsweeps, hunsettled⟩ := h
    refine ⟨⟨?_, ?_, ?_, ⟨?_, ?_, ?_⟩, ?_⟩, hstack, hsweeps⟩ <;> simp [hstack, hresolving, hsweeps, hunsettled]

/-! ## Acts that leave alone what is under way -/

theorem underway_rememberRead (s : Session) (node : NodeId) (name : String) :
    (s.rememberRead node name).underway = s.underway := by
  unfold rememberRead rememberFirst
  split <;> rfl

theorem foldl_inject_eq (f : Forest) (decls : List NodeId) (s : Session × PropertyWrites) :
    ∃ injected, (decls.foldl (inject f) s).1 = { s.1 with injected } := by
  induction decls generalizing s with
  | nil => exact ⟨s.1.injected, rfl⟩
  | cons decl rest ih =>
    obtain ⟨injected, h⟩ := ih (inject f s decl)
    refine ⟨injected, ?_⟩
    rw [foldl_cons, h]
    unfold inject
    split
    · rfl
    · split <;> rfl

/-- Collecting the writes to properties changes nothing else. -/
theorem collect_eq (f : Forest) (s : Session) (c : NodeId) :
    ∃ collected injected dynamic, s.collect f c = { s with collected, injected, dynamic } := by
  unfold collect
  split
  · exact ⟨s.collected, s.injected, s.dynamic, rfl⟩
  · obtain ⟨injected, h⟩ := foldl_inject_eq f (f.ownProperties c)
      ({ s with collected := c :: s.collected }, PropertyWrites.inClass f c)
    dsimp only
    rw [h]
    split
    · exact ⟨c :: s.collected, injected, s.dynamic, rfl⟩
    · exact ⟨c :: s.collected, injected, _, rfl⟩

theorem underway_collect (f : Forest) (s : Session) (c : NodeId) : (s.collect f c).underway = s.underway := by
  obtain ⟨collected, injected, dynamic, h⟩ := collect_eq f s c
  rw [h, underway, underway]

/-! ## Acts that change what is under way -/

theorem Rests.push {node : NodeId} (h : Rests limit stack sweeps s) (hnode : node ∉ stack)
    (hroom : stack.length < limit) : Rests limit (node :: stack) sweeps (s.push node) := by
  obtain ⟨b, rfl, rfl⟩ := h
  have n := b.sweeps_nested
  refine ⟨⟨?_, ?_, ?_, ⟨n.scopes_nodup, n.depths_decrease, ?_⟩, ?_⟩, rfl, rfl⟩
  · exact nodup_cons.mpr ⟨hnode, b.stack_nodup⟩
  · exact hroom
  · change s.resolving.insert node = node :: s.stack
    rw [b.resolving_eq, insert_of_not_mem hnode]
  · intro w hw
    have bounds := n.depth_bounds w hw
    exact ⟨bounds.1, Nat.le_succ_of_le bounds.2⟩
  · intro d hd
    have bounds := b.unsettled_bounds d hd
    exact ⟨bounds.1, Nat.lt_succ_of_lt bounds.2⟩

/-- Settling takes the mark away from the frame that is left. -/
theorem settle_snd (s : Session) :
    s.settle.2 = { s with unsettledFrom := if s.unsettledFrom = some s.stack.length then none else s.unsettledFrom } := by
  obtain ⟨memo, stack, resolving, sweeps, unsettledFrom, swept, collected, injected, dynamic⟩ := s
  cases unsettledFrom with
  | none => rfl
  | some d =>
    by_cases hle : d ≤ stack.length
    · by_cases heq : stack.length = d
      · simp [settle, heq]
      · simp [settle, hle, heq, Ne.symm heq]
    · have hne : d ≠ stack.length := by omega
      simp [settle, hle, hne]

/-- What leaving a node does: the node goes off the stack, the mark goes with the lowest node that it concerns, and the
types of a settled node are remembered. -/
theorem leave_eq (s : Session) (node : NodeId) (types : Option TypeSet) :
    s.leave node types =
      { s.pop node with
        memo := match types with
          | some t => if (s.pop node).settle.1 then s.memo.insert node t else s.memo
          | none => s.memo
        unsettledFrom :=
          if s.unsettledFrom = some (s.stack.drop 1).length then none else s.unsettledFrom } := by
  have hsnd := settle_snd (s.pop node)
  unfold leave
  cases types with
  | none => exact hsnd
  | some t =>
    dsimp only
    split
    · rw [hsnd]
      rfl
    · exact hsnd

/-- What leaving a node does to the memory. -/
theorem memo_leave (s : Session) (node : NodeId) (types : Option TypeSet) :
    (s.leave node types).memo = s.memo ∨
      ∃ t, types = some t ∧ (s.leave node types).memo = s.memo.insert node t := by
  rw [leave_eq]
  cases types with
  | none => exact .inl rfl
  | some t =>
    dsimp only
    split
    · exact .inr ⟨t, rfl, rfl⟩
    · exact .inl rfl

theorem Rests.leave {node : NodeId} (types : Option TypeSet) (h : Rests limit (node :: stack) sweeps s)
    (hdepths : ∀ w ∈ sweeps, w.depth ≤ stack.length) : Rests limit stack sweeps (s.leave node types) := by
  obtain ⟨b, hstack, rfl⟩ := h
  have n := b.sweeps_nested
  have hdrop : s.stack.drop 1 = stack := by rw [hstack, drop_one, tail_cons]
  have hnodup := b.stack_nodup
  have hlength := b.stack_length
  rw [hstack] at hnodup hlength
  rw [leave_eq]
  refine ⟨⟨?_, ?_, ?_, ⟨n.scopes_nodup, n.depths_decrease, ?_⟩, ?_⟩, hdrop, rfl⟩
  · change (s.stack.drop 1).Nodup
    rw [hdrop]
    exact (nodup_cons.mp hnodup).2
  · change (s.stack.drop 1).length ≤ limit
    rw [hdrop]
    exact Nat.le_of_succ_le hlength
  · change s.resolving.erase node = s.stack.drop 1
    rw [b.resolving_eq, hstack, erase_cons_head, drop_one, tail_cons]
  · intro w hw
    change 1 ≤ w.depth ∧ w.depth ≤ (s.stack.drop 1).length
    rw [hdrop]
    exact ⟨(n.depth_bounds w hw).1, hdepths w hw⟩
  · intro d hd
    change 1 ≤ d ∧ d < (s.stack.drop 1).length
    dsimp only at hd
    split at hd
    · cases hd
    · next hne =>
      have bounds := b.unsettled_bounds d hd
      rw [hd, Option.some.injEq, hdrop] at hne
      rw [hstack, length_cons] at bounds
      rw [hdrop]
      omega

theorem Rests.unsettle {depth : Nat} (h : Rests limit stack sweeps s) (hpos : 1 ≤ depth)
    (hlt : depth < stack.length) : Rests limit stack sweeps (s.unsettle depth) := by
  obtain ⟨b, rfl, rfl⟩ := h
  refine ⟨⟨b.stack_nodup, b.stack_length, b.resolving_eq, b.sweeps_nested, ?_⟩, rfl, rfl⟩
  intro d hd
  cases hm : s.unsettledFrom with
  | none =>
    simp only [Session.unsettle, hm, Option.some.injEq] at hd
    subst hd
    exact ⟨hpos, hlt⟩
  | some m =>
    have bounds := b.unsettled_bounds m hm
    simp only [Session.unsettle, hm, Option.some.injEq] at hd
    subst hd
    exact ⟨by omega, Nat.lt_of_le_of_lt (Nat.min_le_right m depth) hlt⟩

variable {scope : NodeId}

/-- Reading ahead marks a frame that has a sweep below it. -/
theorem Rests.readAhead {name : String} (h : Rests limit stack sweeps s)
    (hdepths : ∀ w ∈ sweeps, w.depth < stack.length) :
    Rests limit stack sweeps (s.readAhead scope name).2 := by
  unfold Session.readAhead
  cases hw : Sweeps.find? s.sweeps scope with
  | none => exact h
  | some w =>
    have hmem : w ∈ s.sweeps := mem_of_find?_eq_some hw
    refine h.unsettle (h.bracketed.sweeps_nested.depth_bounds w hmem).1 (hdepths w ?_)
    rwa [← h.sweeps_eq]

theorem beginSweep_of_not (h : (s.beginSweep scope).1 = false) : (s.beginSweep scope).2 = s := by
  unfold beginSweep at h ⊢
  split at h
  · next hc => rw [if_pos hc]
  · cases h

/-- A sweep begins in the frame of a node, above all sweeps under way. -/
theorem Rests.beginSweep (h : Rests limit stack sweeps s)
    (hdepths : ∀ w ∈ sweeps, w.depth < stack.length) (hpos : 1 ≤ stack.length)
    (hbegun : (s.beginSweep scope).1 = true) :
    Rests limit stack (Sweeps.enter sweeps scope stack.length) (s.beginSweep scope).2 := by
  obtain ⟨b, rfl, rfl⟩ := h
  unfold Session.beginSweep at hbegun ⊢
  split at hbegun
  · cases hbegun
  · next hnot =>
    rw [if_neg hnot]
    have hfresh : scope ∉ s.sweeps.map (·.frame.scope) := by
      intro hmem
      obtain ⟨w, hw, hscope⟩ := mem_map.mp hmem
      refine hnot (Bool.or_eq_true_iff.mpr (.inr ?_))
      exact find?_isSome.mpr ⟨w, hw, beq_iff_eq.mpr hscope⟩
    refine ⟨⟨b.stack_nodup, b.stack_length, b.resolving_eq, ?_, b.unsettled_bounds⟩, rfl, rfl⟩
    exact Sweeps.nested_cons.mpr ⟨hfresh, hdepths, ⟨hpos, Nat.le_refl _⟩, b.sweeps_nested⟩

theorem Rests.modifyVariables {w : Sweep} (h : Rests limit stack (w :: sweeps) s) (g : Variables → Variables) :
    Rests limit stack (⟨w.frame.change g, w.depth⟩ :: sweeps) (s.modifyVariables g) := by
  obtain ⟨b, rfl, hsweeps⟩ := h
  have n := b.sweeps_nested
  rw [hsweeps, Sweeps.nested_cons] at n
  have heq : (s.modifyVariables g).sweeps =
      ⟨w.frame.change g, w.depth⟩ :: sweeps := by
    simp [Session.modifyVariables, Sweeps.modifyCurrent, hsweeps]
  refine ⟨⟨b.stack_nodup, b.stack_length, b.resolving_eq, ?_, b.unsettled_bounds⟩, rfl, heq⟩
  rw [heq]
  exact Sweeps.nested_cons.mpr n

theorem Rests.endSweep {w : Sweep} (h : Rests limit stack (w :: sweeps) s) (scope : NodeId) (finished : Bool) :
    Rests limit stack sweeps (s.endSweep scope finished) := by
  obtain ⟨b, rfl, hsweeps⟩ := h
  have n := b.sweeps_nested
  rw [hsweeps, Sweeps.nested_cons] at n
  have heq : (s.endSweep scope finished).sweeps = sweeps := by simp [Session.endSweep, hsweeps]
  refine ⟨⟨b.stack_nodup, b.stack_length, b.resolving_eq, ?_, b.unsettled_bounds⟩, rfl, heq⟩
  rw [heq]
  exact n.2.2.2

end Session

/-! ## What acts make of a session -/

theorem Variables.known_nonempty (v : Variables) (name : String) : (v.known name).isEmpty = false := by
  unfold known
  cases h : (v.get? name).filter fun t => !t.isEmpty with
  | none => rfl
  | some t => simpa using (Option.filter_eq_some_iff.mp h).2

/-- What an act makes of a session. Where it does none of this, the session stays as it is. -/
inductive Act.Makes (s : Session) : Act → Session → Prop
  | same (a) : Makes s a s
  | enter (node) : Makes s (.enter node) (s.push node)
  | leave (node types memo unsettledFrom) (hmemo : memo = s.memo ∨ ∃ t, types = some t ∧ memo = s.memo.insert node t)
    (hmark : unsettledFrom = none ∨ unsettledFrom = s.unsettledFrom) :
    Makes s (.leave node types) { s.pop node with memo, unsettledFrom }
  | ahead (scope name w) (hw : Sweeps.find? s.sweeps scope = some w) :
    Makes s (.readAhead scope name) (s.unsettle w.depth)
  | begins (scope) : Makes s (.beginSweep scope) { s with sweeps := Sweeps.enter s.sweeps scope s.stack.length }
  | ends (scope finished) : Makes s (.endSweep scope finished) (s.endSweep scope finished)
  | change (g) : Makes s (.changeVariables g) (s.modifyVariables g)
  | read (node name types) (hnonempty : types.isEmpty = false) (hnew : s.memo.find? node = none) :
    Makes s (.rememberRead node name) (s.remember node types)
  | collect (f c collected injected dynamic) (heq : s.collect f c = { s with collected, injected, dynamic }) :
    Makes s (.collect f c) { s with collected, injected, dynamic }

theorem Act.perform_makes (a : Act) (s : Session) : a.Makes s (a.perform s).2 := by
  cases a with
  | enter node => exact .enter node
  | leave node types =>
    have hmemo := s.memo_leave node types
    change Makes s _ (s.leave node types)
    rw [Session.leave_eq] at hmemo ⊢
    refine .leave node types _ _ hmemo ?_
    split
    · exact .inl rfl
    · exact .inr rfl
  | readAhead scope name =>
    simp only [perform, Session.readAhead]
    split
    · next w hw => exact .ahead scope name w hw
    · exact .same _
  | beginSweep scope =>
    simp only [perform, Session.beginSweep]
    split
    · exact .same _
    · exact .begins scope
  | endSweep scope finished => exact .ends scope finished
  | changeVariables g => exact .change g
  | rememberRead node name =>
    simp only [perform, Session.rememberRead, Session.rememberFirst]
    split
    · exact .same _
    · next hnot =>
      refine .read node name _ ?_ (by simpa [Sorted.contains_eq_isSome_find?] using hnot)
      cases s.frame? with
      | none => rfl
      | some v => exact v.known_nonempty name
  | collect f c =>
    obtain ⟨collected, injected, dynamic, heq⟩ := s.collect_eq f c
    change Makes s _ (s.collect f c)
    rw [heq]
    exact .collect f c collected injected dynamic heq
  | _ => exact .same _

/-! ## Inquiries -/

/-- An act finds a bracketed session. A node is entered that has no remembered types, and the innermost node is left
with types, unless its resolution failed. -/
structure Act.InOrder (limit : Nat) (a : Act) (s : Session) : Prop where
  bracketed : s.Bracketed limit
  enter_fresh : ∀ node, a = .enter node → s.memo.find? node = none ∧ node ∉ s.stack
  leave_innermost : ∀ node types, a = .leave node types → s.stack.head? = some node
  leave_nonempty : ∀ node types, a = .leave node (some types) → types.isEmpty = false

/-- An act that neither enters nor leaves a node and neither reads ahead nor ends a sweep. -/
def Act.isQuiet : Act → Bool
  | .enter _ | .leave .. | .readAhead .. | .endSweep .. => false
  | _ => true

open Session in
/-- A condition that all acts of inquiries meet, as long as they begin on stacks and amid sweeps as `inner` says. -/
structure Act.Granted (limit : Nat) (inner : List NodeId → Sweeps → Prop) (pre : Act → Session → Prop) : Prop where
  quiet : ∀ {a stack sweeps s}, a.isQuiet = true → Rests limit stack sweeps s → pre a s
  ahead : ∀ {stack sweeps s} scope name, Rests limit stack sweeps s → inner stack sweeps →
    (∀ w ∈ sweeps, w.depth < stack.length) → pre (.readAhead scope name) s
  ends : ∀ {stack w sweeps s} finished, Rests limit stack (w :: sweeps) s → inner stack sweeps →
    pre (.endSweep w.frame.scope finished) s
  enter : ∀ {stack sweeps s node}, Rests limit stack sweeps s → s.memo.find? node = none → node ∉ stack →
    pre (.enter node) s
  leave : ∀ {stack sweeps s node types}, Rests limit (node :: stack) sweeps s →
    (∀ t, types = some t → t.isEmpty = false) → pre (.leave node types) s
  push : ∀ {stack sweeps} node, inner stack sweeps → inner (node :: stack) sweeps
  begins : ∀ {stack sweeps} v, inner stack sweeps → inner stack (⟨v, stack.length⟩ :: sweeps)

variable {s : Session}

/-- The sweeps under way began on a stack that was not higher. -/
theorem Session.Rests.depths_le {limit : Nat} {stack : List NodeId} {sweeps : Sweeps}
    (h : Rests limit stack sweeps s) : ∀ w ∈ sweeps, w.depth ≤ stack.length := by
  intro w hw
  rw [← h.sweeps_eq] at hw
  rw [← h.stack_eq]
  exact (h.bracketed.sweeps_nested.depth_bounds w hw).2

namespace Inquiry

open Session

variable {limit : Nat} {stack : List NodeId} {sweeps : Sweeps} {inner : List NodeId → Sweeps → Prop}
  {pre : Act → Session → Prop} (hg : Act.Granted limit inner pre)

include hg

/-- A quiet act that changes nothing that is under way keeps the stack and the sweeps. -/
theorem granted_act {a : Act} (ha : a.isQuiet = true) (h : ∀ s : Session, (a.perform s).2.underway = s.underway) :
    Keeps pre (Rests limit stack sweeps) (act a) :=
  keeps_act (fun _ hs => hg.quiet ha hs) fun s hs => hs.of_underway (h s)

section Answers

/-! In the frame of a node all sweeps under way began below it. What the node asks for is resolved with its frame on
the stack. -/

variable {x : Index} {types : NodeId → Inquiry TypeSet}
  (htypes : ∀ sweeps, inner stack sweeps → ∀ node, Keeps pre (Rests limit stack sweeps) (types node))

include htypes

theorem answerSweep_granted {scope : NodeId}
    (hinner : ∀ v : Variables, v.scope = scope → inner stack (⟨v, stack.length⟩ :: sweeps)) (q : SweepQuestion) :
    Keeps pre (Amid limit stack sweeps scope) (answerSweep types q) := by
  rintro s ⟨v, hscope, hs⟩
  cases q with
  | types node => exact (htypes _ (hinner v hscope) node s hs).mono fun _ _ _ h => ⟨v, hscope, h⟩
  | isResolving node => exact ⟨hg.quiet rfl hs, v, hscope, hs⟩
  | current => exact ⟨hg.quiet rfl hs, v, hscope, hs⟩
  | change g => exact ⟨hg.quiet rfl hs, v.change g, hscope, hs.modifyVariables g⟩
  | read node name => exact ⟨hg.quiet rfl hs, v, hscope, hs.of_underway (underway_rememberRead s node name)⟩

variable (hinner : inner stack sweeps) (hdepths : ∀ w ∈ sweeps, w.depth < stack.length) (hpos : 1 ≤ stack.length)

include hinner hdepths hpos

theorem sweep_granted (scope : NodeId) : Keeps pre (Rests limit stack sweeps) (sweep x types scope) := by
  intro s hs
  refine sweep_watched (hg.quiet rfl hs) (fun hnot => ?_) fun hbegun => ?_
  · rwa [beginSweep_of_not hnot]
  · have hamid : Amid limit stack sweeps scope (s.beginSweep scope).2 :=
      ⟨{ scope }, rfl, hs.beginSweep hdepths hpos hbegun⟩
    have hsteps : ∀ q, Keeps pre (Amid limit stack sweeps scope) (answerSweep types q) :=
      answerSweep_granted hg htypes fun v _ => hg.begins v hinner
    refine (Keeps.interpret hsteps _ _ hamid).mono ?_
    rintro r s - ⟨v, rfl, hs⟩
    exact ⟨hg.ends r.isOk hs hinner, hs.endSweep v.scope r.isOk⟩

theorem readVariable_granted (node scope : NodeId) (name : String) :
    Keeps pre (Rests limit stack sweeps) (readVariable x types node scope name) :=
  .readVariable (keeps_act (fun _ hs => hg.ahead scope name hs hinner hdepths) fun _ hs => hs.readAhead hdepths)
    (sweep_granted hg htypes hinner hdepths hpos scope) (granted_act hg rfl fun _ => rfl)

theorem answer_granted (q : NodeQuestion) : Keeps pre (Rests limit stack sweeps) (answer x types q) := by
  cases q with
  | types node => exact htypes sweeps hinner node
  | isResolving node => exact granted_act hg rfl fun _ => rfl
  | read node scope name => exact readVariable_granted hg htypes hinner hdepths hpos node scope name
  | collect c => exact granted_act hg rfl fun s => underway_collect x.forest s c
  | writesTo decl => exact granted_act hg rfl fun _ => rfl
  | looseWrites owner name => exact granted_act hg rfl fun _ => rfl

end Answers

omit hg in
theorem orUnknown_nonempty (kind : NodeKind) (found : TypeSet) : (orUnknown kind found).isEmpty = false := by
  unfold orUnknown
  split
  · rfl
  · next h => exact Bool.eq_false_iff.mpr h

/-- An inquiry ends with the stack and the sweeps with which it began. All that it does is granted. -/
theorem resolveWithin_granted (x : Index) (room : Nat) (node : NodeId) (hroom : stack.length + room = limit)
    (hinner : inner stack sweeps) : Keeps pre (Rests limit stack sweeps) (resolveWithin x limit room node) := by
  induction room generalizing node stack sweeps with
  | zero =>
    intro s hs
    exact remembered_watched (hg.quiet rfl hs) (hg.quiet rfl hs) (hg.quiet rfl hs) (fun _ _ => hs) (fun _ _ _ => hs)
      (fun _ _ _ => hs) fun _ _ => hs
  | succ room ih =>
    intro s hs
    refine remembered_watched (hg.quiet rfl hs) (hg.quiet rfl hs) (hg.quiet rfl hs) (fun _ _ => hs) (fun _ _ _ => hs)
      (fun _ _ _ => hs) fun hmemo hstack => ?_
    have hnode : node ∉ stack := by rwa [hs.bracketed.resolving_eq, hs.stack_eq] at hstack
    have hdepths := hs.depths_le
    have hanswer : ∀ q, Keeps pre (Rests limit (node :: stack) sweeps) (answer x (resolveWithin x limit room) q) :=
      answer_granted hg (fun sweeps hinner n => ih n (by rw [length_cons]; omega) hinner) (hg.push node hinner)
        (fun w hw => Nat.lt_succ_of_le (hdepths w hw)) (Nat.succ_le_succ (Nat.zero_le _))
    rw [framed_watched]
    refine ⟨hg.enter hs hmemo hnode, ?_⟩
    refine (Keeps.interpret hanswer _ _ (hs.push hnode (by omega))).mono fun r s _ hs => ?_
    refine ⟨hg.leave hs fun t ht => ?_, hs.leave _ hdepths⟩
    cases r with
    | error e => cases ht
    | ok found =>
      cases ht
      exact orUnknown_nonempty _ found

omit hg in
theorem inOrder_granted (limit : Nat) : Act.Granted limit (fun _ _ => True) (Act.InOrder limit) where
  quiet ha hs :=
    ⟨hs.bracketed, (by rintro _ rfl; cases ha), (by rintro _ _ rfl; cases ha), (by rintro _ _ rfl; cases ha)⟩
  ahead _ _ hs _ _ := ⟨hs.bracketed, nofun, nofun, nofun⟩
  ends _ hs _ := ⟨hs.bracketed, nofun, nofun, nofun⟩
  enter hs hmemo hnode := ⟨hs.bracketed, by rintro _ ⟨⟩; exact ⟨hmemo, hs.stack_eq ▸ hnode⟩, nofun, nofun⟩
  leave hs htypes := by
    refine ⟨hs.bracketed, nofun, ?_, ?_⟩
    · rintro _ _ ⟨⟩
      rw [hs.stack_eq, head?_cons]
    · rintro _ t ⟨⟩
      exact htypes t rfl
  push _ _ := trivial
  begins _ _ := trivial

section InOrder

omit hg

variable {x : Index} {types : NodeId → Inquiry TypeSet}
  (htypes : ∀ sweeps node, Keeps (Act.InOrder limit) (Rests limit stack sweeps) (types node))

include htypes

theorem answerSweep_keeps {scope : NodeId} (q : SweepQuestion) :
    Keeps (Act.InOrder limit) (Amid limit stack sweeps scope) (answerSweep types q) :=
  answerSweep_granted (inOrder_granted limit) (fun sweeps _ => htypes sweeps) (fun _ _ => trivial) q

variable (hdepths : ∀ w ∈ sweeps, w.depth < stack.length) (hpos : 1 ≤ stack.length)

include hdepths hpos

theorem sweep_keeps (scope : NodeId) : Keeps (Act.InOrder limit) (Rests limit stack sweeps) (sweep x types scope) :=
  sweep_granted (inOrder_granted limit) (fun sweeps _ => htypes sweeps) trivial hdepths hpos scope

theorem readVariable_keeps (node scope : NodeId) (name : String) :
    Keeps (Act.InOrder limit) (Rests limit stack sweeps) (readVariable x types node scope name) :=
  readVariable_granted (inOrder_granted limit) (fun sweeps _ => htypes sweeps) trivial hdepths hpos node scope name

theorem answer_keeps (q : NodeQuestion) : Keeps (Act.InOrder limit) (Rests limit stack sweeps) (answer x types q) :=
  answer_granted (inOrder_granted limit) (fun sweeps _ => htypes sweeps) trivial hdepths hpos q

end InOrder

omit hg in
/-- An inquiry ends with the stack and the sweeps with which it began. All that it does is in order. -/
theorem resolveWithin_rests (x : Index) (limit room : Nat) (node : NodeId) (stack : List NodeId) (sweeps : Sweeps)
    (hroom : stack.length + room = limit) :
    Keeps (Act.InOrder limit) (Rests limit stack sweeps) (resolveWithin x limit room node) :=
  resolveWithin_granted (inOrder_granted limit) x room node hroom trivial

end Inquiry

/-- A resolution in an idle session is in order and ends with an idle session. -/
theorem Index.resolve_idle (x : Index) (limit : Nat) (node : NodeId) (h : s.Idle) :
    (Inquiry.resolveWithin x limit limit node).run.Meets (Act.InOrder limit) (fun _ s => s.Idle) s :=
  (Inquiry.resolveWithin_rests x limit limit node [] [] (Nat.zero_add limit) s (Session.rests_nil_iff_idle.mpr h)).mono
    fun _ _ _ h => Session.rests_nil_iff_idle.mp h

theorem Index.resolveAll_idle (x : Index) (limit : Nat) (nodes : List NodeId) (h : s.Idle) :
    (x.resolveAll limit nodes s).Idle :=
  resolveAll_invariant Session.Idle (fun _ node h => (x.resolve_idle limit node h).atEnd)
    nodes h

theorem Session.new_idle : ({} : Session).Idle :=
  ⟨rfl, rfl, rfl, rfl⟩

/-- Whatever was resolved before, a session is bracketed at every act of a resolution, and after the resolution nothing
is under way, whether it ends with types or with an error. -/
theorem Index.resolve_bracketed (x : Index) (limit : Nat) (before : List NodeId) (node : NodeId) :
    (∀ e ∈ (Inquiry.resolveWithin x limit limit node).run.course (x.resolveAll limit before {}),
      e.2.Bracketed limit) ∧
      ((x.resolve limit node).run.run (x.resolveAll limit before {})).2.Idle := by
  have hrun := x.resolve_idle limit node (x.resolveAll_idle limit before Session.new_idle)
  rw [Dialogue.meets_iff] at hrun
  exact ⟨fun e he => (hrun.1 e he).bracketed, hrun.2⟩

end EventAtlas
