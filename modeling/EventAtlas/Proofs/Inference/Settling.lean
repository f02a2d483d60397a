import Mathlib.Data.List.Induction
import EventAtlas.Proofs.Inference.Passes

/-!
# Which answers are settled

A session keeps one number to know which answers rest on a sweep that is not finished. What this number stands for is
said here by the history of a stack: the frames that were entered and left, and the marks that were set at a place of
the stack (`FrameEvent`). A frame is unsettled if a mark was set, at its place or below it, since the frame at the place
of the mark was entered. The number of a session is the lowest such place (`Session.Agrees.apply`), so it says exactly
which frames are settled, and it goes when the frame at that place is left.

The acts of a resolution have such a history (`Act.events`), and it is well bracketed.
-/

namespace EventAtlas

open List

/-- What happens to the stack of a session and to the mark of what is unsettled. -/
inductive FrameEvent where
  | enter (node : NodeId)
  | leave (node : NodeId)
  /-- Answers from this place on the stack on rest on a sweep that is not finished. -/
  | unsettle (depth : Nat)
deriving DecidableEq

namespace FrameEvent

/-- What an event does to a session. -/
def apply : FrameEvent → Session → Session
  | enter node, s => s.push node
  | leave node, s => (s.pop node).settle.2
  | unsettle depth, s => s.unsettle depth

/-! ## Histories

A history lists events, the latest first. -/

variable {h : List FrameEvent} {d e k : Nat} {node : NodeId}

/-- How many frames are on the stack after a history. -/
def height : List FrameEvent → Nat
  | [] => 0
  | enter _ :: h => height h + 1
  | leave _ :: h => height h - 1
  | unsettle _ :: h => height h

/-- A frame is left only where there is one, and a mark is set at the place of a frame. -/
def WellBracketed : List FrameEvent → Prop
  | [] => True
  | enter _ :: h => WellBracketed h
  | leave _ :: h => 0 < height h ∧ WellBracketed h
  | unsettle d :: h => d < height h ∧ WellBracketed h

instance decidableWellBracketed : (h : List FrameEvent) → Decidable (WellBracketed h)
  | [] => .isTrue trivial
  | enter _ :: h => decidableWellBracketed h
  | leave _ :: h => @instDecidableAnd _ _ _ (decidableWellBracketed h)
  | unsettle _ :: h => @instDecidableAnd _ _ _ (decidableWellBracketed h)

theorem WellBracketed.of_cons {e : FrameEvent} (hh : WellBracketed (e :: h)) : WellBracketed h := by
  cases e with
  | enter node => exact hh
  | _ => exact hh.2

/-- The events since the frame at a place was entered. -/
def since (d : Nat) : List FrameEvent → List FrameEvent
  | [] => []
  | enter node :: h => if height h = d then [] else enter node :: since d h
  | leave node :: h => leave node :: since d h
  | unsettle e :: h => unsettle e :: since d h

/-- The place was marked since the frame that is there was entered. -/
def Marked (h : List FrameEvent) (d : Nat) : Prop :=
  unsettle d ∈ since d h

instance : Decidable (Marked h d) :=
  inferInstanceAs (Decidable (_ ∈ _))

theorem marked_enter : Marked (enter node :: h) d ↔ height h ≠ d ∧ Marked h d := by
  unfold Marked
  rw [since]
  split
  · next heq => simp [heq]
  · next hne => simp [hne]

theorem marked_leave : Marked (leave node :: h) d ↔ Marked h d := by
  simp [Marked, since]

theorem marked_unsettle : Marked (unsettle e :: h) d ↔ d = e ∨ Marked h d := by
  simp [Marked, since]

/-- The lowest place that was marked since its frame was entered. -/
def mark (h : List FrameEvent) : Option Nat :=
  (List.range (height h)).find? fun d => decide (Marked h d)

theorem mark_eq_some_iff : mark h = some d ↔ d < height h ∧ Marked h d ∧ ∀ e < d, ¬Marked h e := by
  rw [mark, find?_range_eq_some, mem_range]
  simp only [decide_eq_true_eq, Bool.not_eq_true', decide_eq_false_iff_not]
  exact and_left_comm

theorem mark_eq_none_iff : mark h = none ↔ ∀ d < height h, ¬Marked h d := by
  rw [mark, find?_range_eq_none]
  simp only [Bool.not_eq_true', decide_eq_false_iff_not]

theorem mark_enter : mark (enter node :: h) = mark h := by
  ext d
  simp only [mark_eq_some_iff, marked_enter, height]
  constructor
  · rintro ⟨hlt, ⟨hne, hmarked⟩, hlowest⟩
    exact ⟨by omega, hmarked, fun e he hm => hlowest e he ⟨by omega, hm⟩⟩
  · rintro ⟨hlt, hmarked, hlowest⟩
    exact ⟨by omega, ⟨by omega, hmarked⟩, fun e he hm => hlowest e he hm.2⟩

/-- The mark goes with the frame at its place. -/
theorem mark_leave (hk : height h = k + 1) : mark (leave node :: h) = if mark h = some k then none else mark h := by
  ext d
  by_cases hlast : mark h = some k
  · rw [if_pos hlast]
    obtain ⟨-, -, hlowest⟩ := mark_eq_some_iff.mp hlast
    simp only [mark_eq_some_iff, marked_leave, height, hk, reduceCtorEq, iff_false]
    rintro ⟨hlt, hmarked, -⟩
    exact hlowest d (by omega) hmarked
  · rw [if_neg hlast]
    simp only [mark_eq_some_iff, marked_leave, height, hk] at hlast ⊢
    constructor
    · rintro ⟨hlt, hmarked, hlowest⟩
      exact ⟨by omega, hmarked, hlowest⟩
    · rintro ⟨hlt, hmarked, hlowest⟩
      obtain hlt | rfl := Nat.lt_succ_iff_lt_or_eq.mp hlt
      · exact ⟨by omega, hmarked, hlowest⟩
      · exact absurd ⟨by omega, hmarked, hlowest⟩ hlast

theorem mark_unsettle (hd : d < height h) :
    mark (unsettle d :: h) = some (match mark h with
      | some m => min m d
      | none => d) := by
  simp only [mark_eq_some_iff, marked_unsettle, height]
  cases hm : mark h with
  | none =>
    have hnone := mark_eq_none_iff.mp hm
    exact ⟨hd, .inl rfl, fun e he hor => hor.elim (Nat.ne_of_lt he) (hnone e (Nat.lt_trans he hd))⟩
  | some m =>
    obtain ⟨hlt, hmarked, hlowest⟩ := mark_eq_some_iff.mp hm
    dsimp only
    obtain hle | hle := Nat.le_total m d
    · rw [Nat.min_eq_left hle]
      exact ⟨hlt, .inr hmarked, fun e he hor => hor.elim (by omega) (hlowest e he)⟩
    · rw [Nat.min_eq_right hle]
      exact ⟨hd, .inl rfl, fun e he hor => hor.elim (Nat.ne_of_lt he) (hlowest e (by omega))⟩

end FrameEvent

open FrameEvent

/-! ## Sessions -/

namespace Session

variable {s : Session} {h : List FrameEvent} {e : FrameEvent} {node : NodeId}

/-- The session after a history. -/
def after (s : Session) (h : List FrameEvent) : Session :=
  h.foldr FrameEvent.apply s

/-- The session has the stack and the mark that come of a history. -/
structure Agrees (s : Session) (h : List FrameEvent) : Prop where
  wellBracketed : WellBracketed h
  height_eq : s.stack.length = height h
  mark_eq : s.unsettledFrom = mark h

theorem Idle.agrees (hs : s.Idle) : s.Agrees [] :=
  ⟨trivial, by rw [hs.stack_eq]; rfl, hs.unsettledFrom_eq⟩

theorem length_pop (hs : s.Agrees h) (node : NodeId) : (s.pop node).stack.length = height h - 1 := by
  change (s.stack.drop 1).length = _
  rw [length_drop, hs.height_eq]

theorem Agrees.apply (hs : s.Agrees h) (he : WellBracketed (e :: h)) : (e.apply s).Agrees (e :: h) := by
  refine ⟨he, ?_, ?_⟩
  · cases e with
    | enter node => exact congrArg (· + 1) hs.height_eq
    | leave node =>
      change (s.pop node).settle.2.stack.length = _
      rw [settle_snd]
      exact length_pop hs node
    | unsettle d => exact hs.height_eq
  · cases e with
    | enter node => exact hs.mark_eq.trans mark_enter.symm
    | leave node =>
      obtain ⟨k, hk⟩ := Nat.exists_eq_succ_of_ne_zero (Nat.ne_of_gt he.1)
      change (s.pop node).settle.2.unsettledFrom = _
      rw [settle_snd, mark_leave hk, length_pop hs node, hk]
      change (if s.unsettledFrom = some k then none else s.unsettledFrom) = _
      rw [hs.mark_eq]
    | unsettle d =>
      rw [mark_unsettle he.1, ← hs.mark_eq]
      rfl

theorem Agrees.after {later : List FrameEvent} (hs : s.Agrees h) (hlater : WellBracketed (later ++ h)) :
    (s.after later).Agrees (later ++ h) := by
  induction later with
  | nil => exact hs
  | cons e later ih => exact (ih hlater.of_cons).apply hlater

theorem Idle.agrees_after (hs : s.Idle) (hh : WellBracketed h) : (s.after h).Agrees h := by
  have hagrees := hs.agrees.after (append_nil h ▸ hh)
  rwa [append_nil] at hagrees

/-- A frame is settled if nothing up to its place was marked since the frames were entered. -/
theorem Agrees.settled_iff {p : Nat} (hs : s.Agrees h) (hp : height h = p + 1) (node : NodeId) :
    (s.pop node).settle.1 = true ↔ ∀ d ≤ p, ¬Marked h d := by
  have hlength := length_pop hs node
  have hmark : (s.pop node).unsettledFrom = mark h := hs.mark_eq
  rw [hp, Nat.add_sub_cancel] at hlength
  unfold settle
  rw [hmark, hlength]
  cases hm : mark h with
  | none =>
    have hnone := mark_eq_none_iff.mp hm
    simp only [true_iff]
    exact fun d hd => hnone d (by omega)
  | some m =>
    obtain ⟨hlt, hmarked, -⟩ := mark_eq_some_iff.mp hm
    simp only [show m ≤ p by omega, if_true, Bool.false_eq_true, false_iff]
    exact fun hall => hall m (by omega) hmarked

end Session

/-! ## Acts -/

namespace Act

open Session

/-- What an act does to the stack and to the mark. A read ahead of a sweep marks the place where the sweep began. -/
def events : Act → Session → List FrameEvent
  | enter node, _ => [.enter node]
  | leave node _, _ => [.leave node]
  | readAhead scope _, s => ((Sweeps.find? s.sweeps scope).map fun w => .unsettle w.depth).toList
  | _, _ => []

/-- All sweeps under way began below the frame of the node for which a variable is read. -/
def ReadsInside (a : Act) (s : Session) : Prop :=
  ∀ scope name, a = .readAhead scope name → ∀ w ∈ s.sweeps, w.depth < s.stack.length

variable {a : Act} {s : Session} {h : List FrameEvent} {limit : Nat}

theorem readsInside_of_ne (ha : ∀ scope name, a ≠ .readAhead scope name) : a.ReadsInside s :=
  fun scope name heq => absurd heq (ha scope name)

/-- Nothing but its events changes the stack and the mark. -/
theorem perform_eq_after_events (a : Act) (s : Session) :
    (a.perform s).2.stack = (s.after (a.events s)).stack ∧
      (a.perform s).2.unsettledFrom = (s.after (a.events s)).unsettledFrom := by
  cases a with
  | leave node types =>
    change (s.leave node types).stack = (s.pop node).settle.2.stack ∧
      (s.leave node types).unsettledFrom = (s.pop node).settle.2.unsettledFrom
    rw [leave_eq, settle_snd]
    exact ⟨rfl, rfl⟩
  | readAhead scope name =>
    simp only [perform, Session.readAhead, events]
    cases Sweeps.find? s.sweeps scope <;> exact ⟨rfl, rfl⟩
  | beginSweep scope =>
    simp only [perform, Session.beginSweep]
    split <;> exact ⟨rfl, rfl⟩
  | rememberRead node name =>
    simp only [perform, Session.rememberRead, Session.rememberFirst]
    split <;> exact ⟨rfl, rfl⟩
  | collect f c =>
    obtain ⟨collected, injected, dynamic, heq⟩ := s.collect_eq f c
    simp only [perform, heq]
    exact ⟨rfl, rfl⟩
  | _ => exact ⟨rfl, rfl⟩

theorem wellBracketed_events (hs : s.Agrees h) (horder : a.InOrder limit s) (hinside : a.ReadsInside s) :
    WellBracketed (a.events s ++ h) := by
  cases a with
  | leave node types =>
    refine ⟨?_, hs.wellBracketed⟩
    have hhead := horder.leave_innermost node types rfl
    change 0 < height h
    rw [← hs.height_eq, length_pos_iff]
    intro hnil
    rw [hnil] at hhead
    cases hhead
  | readAhead scope name =>
    rw [events]
    cases hfind : Sweeps.find? s.sweeps scope with
    | none => exact hs.wellBracketed
    | some w =>
      have hlt := hinside scope name rfl w (mem_of_find?_eq_some hfind)
      exact ⟨hs.height_eq ▸ hlt, hs.wellBracketed⟩
  | _ => exact hs.wellBracketed

/-- An act in order adds its events to the history with which the session agrees. -/
theorem agrees_perform (hs : s.Agrees h) (horder : a.InOrder limit s) (hinside : a.ReadsInside s) :
    (a.perform s).2.Agrees (a.events s ++ h) := by
  have hafter := hs.after (wellBracketed_events hs horder hinside)
  obtain ⟨hstack, hmark⟩ := perform_eq_after_events a s
  exact ⟨hafter.wellBracketed, hstack ▸ hafter.height_eq, hmark ▸ hafter.mark_eq⟩

end Act

open Session in
/-- Whatever an inquiry reads, it reads inside of a frame above all sweeps. -/
theorem Act.readsInside_granted (limit : Nat) : Granted limit (fun _ _ => True) ReadsInside where
  quiet ha _ := readsInside_of_ne (by rintro _ _ rfl; cases ha)
  ahead _ _ hs _ hdepths := by
    intro _ _ _ w hw
    rw [hs.sweeps_eq] at hw
    rw [hs.stack_eq]
    exact hdepths w hw
  ends _ _ _ := readsInside_of_ne nofun
  enter _ _ _ := readsInside_of_ne nofun
  leave _ _ := readsInside_of_ne nofun
  push _ _ := trivial
  begins _ _ := trivial

/-! ## Courses -/

/-- What happened to the stack and to the mark in a course. -/
def history (course : List (Act × Session)) : List FrameEvent :=
  course.foldl (fun h e => e.1.events e.2 ++ h) []

theorem history_concat (course : List (Act × Session)) (e : Act × Session) :
    history (course ++ [e]) = e.1.events e.2 ++ history course := by
  rw [history, foldl_append]
  rfl

/-- Every act in a course finds a session that agrees with what happened before it. -/
theorem Dialogue.agrees_of_course {α : Type} {d : Dialogue Act α} {s : Session} {h : List FrameEvent} {limit : Nat}
    (hs : s.Agrees h) (horder : ∀ e ∈ d.course s, e.1.InOrder limit e.2 ∧ e.1.ReadsInside e.2)
    {c₁ c₂ : List (Act × Session)} {e : Act × Session} (hc : d.course s = c₁ ++ e :: c₂) :
    e.2.Agrees (c₁.foldl (fun h e => e.1.events e.2 ++ h) h) := by
  induction d generalizing s h c₁ with
  | done a => simp [course] at hc
  | ask act next ih =>
    rw [course, forall_mem_cons] at horder
    rw [course] at hc
    cases c₁ with
    | nil =>
      cases hc
      exact hs
    | cons first c₁ =>
      obtain ⟨rfl, hlater⟩ := List.cons.inj hc
      exact ih _ (Act.agrees_perform hs horder.1.1 horder.1.2) horder.2 hlater

/-- A place that is marked stays marked while its frame stays on the stack. -/
theorem marked_of_stays {d : Nat} {course c₁ c₂ c₃ : List (Act × Session)}
    (hagrees : ∀ c₁ e c₂, course = c₁ ++ e :: c₂ → e.2.Agrees (history c₁)) (hc : course = c₁ ++ c₂ ++ c₃)
    (hmarked : Marked (history c₁) d) (hstays : ∀ e ∈ c₂, d < e.2.stack.length) : Marked (history (c₁ ++ c₂)) d := by
  induction c₂ using List.reverseRecOn generalizing c₃ with
  | nil => rwa [append_nil]
  | append_singleton c₂ e ih =>
    rw [forall_mem_append] at hstays
    have hbefore : Marked (history (c₁ ++ c₂)) d := ih (by simpa using hc) hstays.1
    have hs : e.2.Agrees (history (c₁ ++ c₂)) := hagrees _ e c₃ (by simpa using hc)
    have hlt := hstays.2 e mem_cons_self
    rw [hs.height_eq] at hlt
    rw [← append_assoc, history_concat]
    obtain ⟨a, s⟩ := e
    cases a with
    | enter node => exact marked_enter.mpr ⟨Nat.ne_of_gt hlt, hbefore⟩
    | leave node types => exact marked_leave.mpr hbefore
    | readAhead scope name =>
      rw [Act.events]
      cases Sweeps.find? s.sweeps scope with
      | none => exact hbefore
      | some w => exact marked_unsettle.mpr (.inr hbefore)
    | _ => exact hbefore

namespace Index

open Inquiry Session

/-- Every act of a resolution finds a session that agrees with what happened before it. -/
theorem course_agrees (x : Index) (limit : Nat) (before : List NodeId) (node : NodeId)
    {c₁ c₂ : List (Act × Session)} {e : Act × Session}
    (hc : (resolveWithin x limit limit node).run.course (x.resolveAll limit before {}) = c₁ ++ e :: c₂) :
    e.2.Agrees (history c₁) := by
  have hidle := x.resolveAll_idle limit before Session.new_idle
  have horder := ((Dialogue.meets_iff _ _).mp (x.resolve_idle limit node hidle)).1
  have hroom : ([] : List NodeId).length + limit = limit := Nat.zero_add limit
  have hinside := resolveWithin_granted (Act.readsInside_granted limit) x limit node hroom trivial _
    (rests_nil_iff_idle.mpr hidle)
  rw [Dialogue.meets_iff] at hinside
  exact Dialogue.agrees_of_course hidle.agrees (fun e he => ⟨horder e he, hinside.1 e he⟩) hc

/-- The types of a node are remembered if no place up to that of its frame was marked since its frame was entered. -/
theorem memo_leave {s : Session} {h : List FrameEvent} {p : Nat} (hs : s.Agrees h) (hp : s.stack.length = p + 1)
    (node : NodeId) (types : TypeSet) :
    (s.leave node (some types)).memo = if ∀ d ≤ p, ¬Marked h d then s.memo.insert node types else s.memo := by
  rw [leave_eq]
  exact if_congr (hs.settled_iff (hs.height_eq ▸ hp) node) rfl rfl

/-- Nothing is remembered for a node whose frame is on the stack from a read ahead of a sweep on until it is left, at or
above the depth of the sweep. -/
theorem memo_leave_of_readAhead (x : Index) (limit : Nat) (before : List NodeId) (node : NodeId) {scope n : NodeId}
    {name : String} {types : Option TypeSet} {s u : Session} {w : Sweep} {p : Nat} {c₁ c₂ c₃ : List (Act × Session)}
    (hc : (resolveWithin x limit limit node).run.course (x.resolveAll limit before {}) =
      c₁ ++ (.readAhead scope name, s) :: c₂ ++ (.leave n types, u) :: c₃)
    (hfind : Sweeps.find? s.sweeps scope = some w) (hp : u.stack.length = p + 1) (hdepth : w.depth ≤ p)
    (hstays : ∀ e ∈ c₂, p < e.2.stack.length) : (u.leave n types).memo = u.memo := by
  cases types with
  | none =>
    rewrite [leave_eq]
    rfl
  | some types =>
    have hu := x.course_agrees limit before node hc
    have hread : Marked (history (c₁ ++ [(.readAhead scope name, s)])) w.depth := by
      rw [history_concat, Act.events, hfind]
      exact marked_unsettle.mpr (.inl rfl)
    have hsplit : (resolveWithin x limit limit node).run.course (x.resolveAll limit before {}) =
        (c₁ ++ [(.readAhead scope name, s)]) ++ c₂ ++ (.leave n (some types), u) :: c₃ := by simpa using hc
    have hmarked := marked_of_stays (fun _ _ _ h => x.course_agrees limit before node h) hsplit hread
      fun e he => Nat.lt_of_le_of_lt hdepth (hstays e he)
    rw [append_assoc, singleton_append] at hmarked
    rw [memo_leave hu hp, if_neg fun hall => hall w.depth hdepth hmarked]

/-- **Marks are exact.** After any well bracketed history of an idle session, the frame that is left is settled if and
only if no place up to its own was marked since the frame at that place was entered; and the mark of the session is the
lowest place that was marked since, so it goes with the frame that is there.

Every resolution has such a history, whatever was resolved before: the session that an act finds has the mark that comes
of it, and what a node is left with is remembered if and only if its frame is settled. So nothing is remembered for a
node that was on the stack, at or above the depth of a sweep, when a variable was read ahead of that sweep. -/
theorem readAhead_marks_exactly :
    (∀ (s : Session) (h : List FrameEvent) (p : Nat) (node : NodeId), s.Idle → WellBracketed h → height h = p + 1 →
      (((s.after h).pop node).settle.1 = true ↔ ∀ d ≤ p, .unsettle d ∉ since d h)) ∧
    (∀ (s : Session) (h : List FrameEvent) (d : Nat) (node : NodeId), s.Idle → WellBracketed h →
      ((s.after h).unsettledFrom = some d ↔
        d < height h ∧ .unsettle d ∈ since d h ∧ ∀ e < d, .unsettle e ∉ since e h) ∧
      (height h = d + 1 → (s.after h).unsettledFrom = some d → (s.after (.leave node :: h)).unsettledFrom = none)) ∧
    ∀ (x : Index) (limit : Nat) (before : List NodeId) (node : NodeId),
      let course := (resolveWithin x limit limit node).run.course (x.resolveAll limit before {})
      (∀ c₁ a s c₂, course = c₁ ++ (a, s) :: c₂ →
        WellBracketed (history c₁) ∧ s.stack.length = height (history c₁) ∧
        s.unsettledFrom = (({} : Session).after (history c₁)).unsettledFrom ∧
        ∀ n types p, a = .leave n (some types) → s.stack.length = p + 1 →
          (a.perform s).2.memo =
            if ∀ d ≤ p, .unsettle d ∉ since d (history c₁) then s.memo.insert n types else s.memo) ∧
      ∀ c₁ scope name s w c₂ n types u p c₃,
        course = c₁ ++ (.readAhead scope name, s) :: c₂ ++ (.leave n types, u) :: c₃ →
        Sweeps.find? s.sweeps scope = some w → u.stack.length = p + 1 → w.depth ≤ p →
        (∀ e ∈ (Act.readAhead scope name, s) :: c₂, p < e.2.stack.length) → (u.leave n types).memo = u.memo := by
  refine ⟨fun s h p node hs hh hp => (hs.agrees_after hh).settled_iff hp node, fun s h d node hs hh => ⟨?_, ?_⟩,
    fun x limit before node => ⟨fun c₁ a s c₂ hc => ?_, ?_⟩⟩
  · rw [(hs.agrees_after hh).mark_eq]
    exact mark_eq_some_iff
  · intro hd hmark
    have hpos : 0 < height h := hd ▸ Nat.succ_pos d
    rw [(hs.agrees_after hh).mark_eq] at hmark
    have hleft : (s.after (.leave node :: h)).Agrees (.leave node :: h) := hs.agrees_after ⟨hpos, hh⟩
    rw [hleft.mark_eq, mark_leave hd, if_pos hmark]
  · have hs := x.course_agrees limit before node hc
    refine ⟨hs.wellBracketed, hs.height_eq, ?_, ?_⟩
    · rw [hs.mark_eq, (Session.new_idle.agrees_after hs.wellBracketed).mark_eq]
    · rintro n types p rfl hp
      exact memo_leave hs hp n types
  · exact fun c₁ scope name s w c₂ n types u p c₃ hc hfind hp hdepth hstays =>
      x.memo_leave_of_readAhead limit before node hc hfind hp hdepth fun e he =>
        hstays e (List.mem_cons_of_mem _ he)

/-- A method that reads a property before it writes to it. -/
def writtenLater : Index :=
  .ofProgram ("<?php\nclass B \x7b function f() \x7b $z = 1; $y = $this->p; $this->p = $z; return $y; \x7d \x7d\n")

/-- `$z` is read ahead, inside of the frame of the property, and then the property is left. -/
def leavesAfterReadAhead : List (Act × Session) → Bool
  | (.readAhead scope name, s) :: e :: (.leave n (some types), u) :: _ =>
    scope == 17 && name == "z" && n == 6 && types.names == ["int"] && u.stack.length == 2 && s.stack.length == 3 &&
      e.2.stack.length == 3 && (Sweeps.find? s.sweeps scope).any (·.depth == 1)
  | _ => false

/-- The property is resolved by the sweep of the method, ahead of which `$z` is read, and is not remembered. -/
theorem readAhead_marks_exactly_writtenLater : ∃ c₁ s c₂ types u c₃,
    (resolveWithin writtenLater 512 512 14).run.course {} =
      c₁ ++ (.readAhead 17 "z", s) :: c₂ ++ (.leave 6 (some types), u) :: c₃ ∧
    types.names = ["int"] ∧ (u.leave 6 (some types)).memo = u.memo := by
  have hfacts : leavesAfterReadAhead (((resolveWithin writtenLater 512 512 14).run.course {}).drop 29) = true := by
    decide +kernel
  unfold leavesAfterReadAhead at hfacts
  split at hfacts
  next scope name s e n types u c₃ hdrop =>
    simp only [Bool.and_eq_true, beq_iff_eq, Option.any_eq_true] at hfacts
    obtain ⟨⟨⟨⟨⟨⟨⟨rfl, rfl⟩, rfl⟩, hnames⟩, hu⟩, hs⟩, he⟩, w, hfind, hw⟩ := hfacts
    have hc : (resolveWithin writtenLater 512 512 14).run.course {} =
        ((resolveWithin writtenLater 512 512 14).run.course {}).take 29 ++ (.readAhead 17 "z", s) :: [e] ++
          (.leave 6 (some types), u) :: c₃ := by
      rw [List.append_assoc, List.cons_append, List.singleton_append, ← hdrop, List.take_append_drop]
    refine ⟨_, s, [e], types, u, c₃, hc, hnames, ?_⟩
    refine (readAhead_marks_exactly.2.2 writtenLater 512 [] 14).2 _ 17 "z" s w [e] 6 (some types) u 1 c₃ hc hfind hu
      (Nat.le_of_eq hw) ?_
    simp only [List.forall_mem_cons]
    exact ⟨by omega, by omega, nofun⟩
  next => cases hfacts

end Index

end EventAtlas
