import EventAtlas.Proofs.Inference.Passes
import EventAtlas.Proofs.Inference.Precedence

/-!
# Failures that are repeated

A resolution that fails leaves what it has found: nodes that it resolved are remembered, scopes count as swept, writes
are collected. Where it is tried again, it finds these instead of working them out, and should come to the same error.

The second run is the first one, in a session that knows more. `Session.amidst` is this session: what lasts of the first
run, with what was under way at some point of it. On the way to the error, answers that were given are given again
(`resolveWithin_ok_again`, `readVariable_ok_again`), because they were settled and so are remembered, and what failed
fails again (`resolveWithin_fails_again`). The session of the first run comes before that of the second in all that a
strategy can ask about (`Session.Precedes`).

Two things can get in the way, both of them left by a sweep that was broken off. It may have remembered a variable on
the way to the error, and it may have been read ahead of, so that an answer was given that is not settled. Without these
a failure is repeatable (`Index.resolve_fails_again`); with each of them it may not be.
-/

namespace EventAtlas

open List

/-! ## The way to the error -/

/-- What the act does can be done again later, in the session `z`: a node whose resolution failed has nothing remembered
for it, and nothing is read ahead of a sweep that is broken off. -/
structure Act.Recoverable (z : Session) (broken : List NodeId) (a : Act) (s : Session) : Prop where
  failed : ∀ node, a = .leave node none → z.memo.find? node = none
  broken_off : ∀ scope, a = .endSweep scope false → scope ∈ broken
  ahead : ∀ scope name, a = .readAhead scope name → Sweeps.contains s.sweeps scope = true → scope ∉ broken

/-- The session is on the way to an error: the nodes on the stack and the sweeps under way are going to fail, and all
answers so far are settled. -/
structure Session.Failing (limit : Nat) (z : Session) (broken stack : List NodeId) (sweeps : Sweeps) (s : Session) :
    Prop where
  rests : Rests limit stack sweeps s
  settled : s.unsettledFrom = none
  forgotten : ∀ node ∈ stack, z.memo.find? node = none
  broken_off : ∀ w ∈ sweeps, w.frame.scope ∈ broken

namespace Session

variable {limit : Nat} {broken stack : List NodeId} {sweeps : Sweeps} {s z : Session} {scope node : NodeId}

theorem leave_of_settled (h : s.unsettledFrom = none) (node : NodeId) (types : Option TypeSet) :
    (s.leave node types).unsettledFrom = none ∧ ∀ found, types = some found →
      (s.leave node types).memo.find? node = some found := by
  have hsettle : (s.pop node).settle = (true, s.pop node) := by
    unfold settle
    rw [show (s.pop node).unsettledFrom = none from h]
  unfold leave
  rw [hsettle]
  cases types with
  | none => exact ⟨h, nofun⟩
  | some types =>
    refine ⟨h, ?_⟩
    rintro found ⟨⟩
    exact Sorted.find?_insert_self _ _ _

theorem beginSweep_of_swept (h : scope ∈ s.swept) : s.beginSweep scope = (false, s) := by
  unfold beginSweep
  rw [if_pos (Bool.or_eq_true_iff.mpr (.inl (contains_iff_mem.mpr h)))]

theorem beginSweep_of_new (hswept : scope ∉ s.swept) (hsweeps : Sweeps.contains s.sweeps scope = false) :
    s.beginSweep scope = (true, { s with sweeps := Sweeps.enter s.sweeps scope s.stack.length }) := by
  have hnot : s.swept.contains scope = false := by
    rw [← Bool.not_eq_true, contains_iff_mem]
    exact hswept
  unfold beginSweep
  rw [hnot, hsweeps]
  rfl

theorem new_of_beginSweep (h : (s.beginSweep scope).1 = true) :
    scope ∉ s.swept ∧ Sweeps.contains s.sweeps scope = false := by
  constructor
  · intro hmem
    rw [beginSweep_of_swept hmem] at h
    cases h
  · cases hc : Sweeps.contains s.sweeps scope with
    | false => rfl
    | true => simp [beginSweep, hc] at h

theorem rememberRead_of_remembered {name : String} (h : s.memo.find? node ≠ none) : s.rememberRead node name = s := by
  have hcontains : s.memo.contains node = true := by
    rw [Sorted.contains_eq_isSome_find?]
    exact Option.isSome_iff_ne_none.mpr h
  rw [rememberRead, rememberFirst, if_pos hcontains]

theorem readAhead_of_not_contains (h : Sweeps.contains s.sweeps scope = false) (name : String) :
    s.readAhead scope name = (none, s) := by
  have hnone : Sweeps.find? s.sweeps scope = none := Option.not_isSome_iff_eq_none.mp (Bool.eq_false_iff.mp h)
  rw [readAhead, hnone]

theorem Rests.not_mem_of_contains (h : Rests limit stack sweeps s)
    (hc : s.resolving.contains node = false) : node ∉ stack := by
  rw [← h.stack_eq, ← h.bracketed.resolving_eq, ← contains_iff_mem, hc]
  exact Bool.false_ne_true

variable (h : Failing limit z broken stack sweeps s)
include h

theorem Failing.of_underway {t : Session} (heq : t.underway = s.underway) : Failing limit z broken stack sweeps t := by
  refine ⟨h.rests.of_underway heq, ?_, h.forgotten, h.broken_off⟩
  simp only [underway, Prod.mk.injEq] at heq
  exact heq.2.2.2.trans h.settled

theorem Failing.push (hnode : node ∉ stack) (hroom : stack.length < limit) (hmemo : z.memo.find? node = none) :
    Failing limit z broken (node :: stack) sweeps (s.push node) :=
  ⟨h.rests.push hnode hroom, h.settled, forall_mem_cons.mpr ⟨hmemo, h.forgotten⟩, h.broken_off⟩

/-- On the way to the error nothing is read ahead, since all sweeps that are under way are going to be broken off. -/
theorem Failing.not_contains {name : String}
    (hread : (Act.readAhead scope name).Recoverable z broken s) : Sweeps.contains s.sweeps scope = false := by
  cases hc : Sweeps.contains s.sweeps scope with
  | false => rfl
  | true =>
    obtain ⟨w, hw⟩ := Option.isSome_iff_exists.mp hc
    have hscope : w.frame.scope = scope := by simpa using find?_some hw
    have hbroken := h.broken_off w (h.rests.sweeps_eq ▸ mem_of_find?_eq_some hw)
    exact absurd (hscope ▸ hbroken) (hread.ahead scope name rfl hc)

end Session

namespace Inquiry

open Session

variable {x : Index} {limit room : Nat} {broken stack : List NodeId} {sweeps : Sweeps} {s t z : Session} {node : NodeId}

/-- On the way to the error, an inquiry leaves nothing unsettled. -/
theorem settled_of_passes {α : Type} {i : Inquiry α}
    (hkeeps : Keeps (Act.Confined stack.length (sweeps.map (·.frame.scope))) (Rests limit stack sweeps) i)
    (hs : Rests limit stack sweeps s) (hsettled : s.unsettledFrom = none)
    (hbroken : ∀ w ∈ sweeps, w.frame.scope ∈ broken) (hpass : i.Passes (Act.Recoverable z broken) s) :
    (i.run.perform s).2.unsettledFrom = none := by
  refine settled_of_confined hkeeps hs hsettled fun e he scope name heq hcontains hmem => ?_
  obtain ⟨w, hw, rfl⟩ := mem_map.mp hmem
  exact (hpass e he).ahead _ name heq hcontains (hbroken w hw)

/-! ### Answers that are given again -/

/-- Where `i` answers on the way to the error, it gives the same answer again. -/
def AnswersAgain {α : Type} (limit : Nat) (z : Session) (broken stack : List NodeId) (sweeps : Sweeps) (s : Session)
    (i : Inquiry α) : Prop :=
  ∀ ⦃a t⦄, i.Passes (Act.Recoverable z broken) s → i.run.perform s = (.ok a, t) → t.Precedes z →
    i.run.perform (z.amidst s) = (.ok a, z.amidst t) ∧ Failing limit z broken stack sweeps t

/-- A node that was resolved on the way is remembered afterwards, or adds nothing again. -/
theorem remembered_ok_again {f : Forest} {i : Inquiry TypeSet} {types : TypeSet}
    (hs : Failing limit z broken stack sweeps s) (hlater : t.Precedes z)
    (hrun : (remembered f node i).run.perform s = (.ok types, t))
    (hopen : s.memo.find? node = none → s.resolving.contains node = false → i.run.perform s = (.ok types, t) →
      Rests limit stack sweeps t ∧ t.unsettledFrom = none ∧ t.memo.find? node = some types) :
    (remembered f node i).run.perform (z.amidst s) = (.ok types, z.amidst t) ∧
      Failing limit z broken stack sweeps t := by
  have hresolving : s.resolving = stack := hs.rests.bracketed.resolving_eq.trans hs.rests.stack_eq
  -- What is remembered on the way is remembered later, for the nodes on the stack are not.
  have hhit (ht : Rests limit stack sweeps t) (hfound : t.memo.find? node = some types) :
      (remembered f node i).run.perform (z.amidst s) = (.ok types, z.amidst t) := by
    have hnode : node ∉ t.stack := by
      intro hmem
      have hnone := hlater.grows.memo node (hs.forgotten node (ht.stack_eq ▸ hmem))
      rw [hfound] at hnone
      cases hnone
    have hmemo : (z.amidst s).memo.find? node = some types := hlater.remembers node types ⟨hfound, hnode⟩
    rw [remembered_perform, hmemo, amidst_eq_of_rests hs.rests ht]
  rw [remembered_perform] at hrun
  cases hmemo : s.memo.find? node with
  | some found =>
    simp only [hmemo, Prod.mk.injEq, Except.ok.injEq] at hrun
    obtain ⟨rfl, rfl⟩ := hrun
    exact ⟨hhit hs.rests hmemo, hs⟩
  | none =>
    cases hc : s.resolving.contains node with
    | false =>
      simp only [hmemo, hc, Bool.false_eq_true, if_false] at hrun
      obtain ⟨ht, hsettled, hfound⟩ := hopen hmemo hc hrun
      exact ⟨hhit ht hfound, ht, hsettled, hs.forgotten, hs.broken_off⟩
    | true =>
      simp only [hmemo, hc, if_true] at hrun
      cases hk : addsNothing (f.kind node) with
      | false => simp [hk] at hrun
      | true =>
        simp only [hk, if_true, Prod.mk.injEq, Except.ok.injEq] at hrun
        obtain ⟨rfl, rfl⟩ := hrun
        have hmemo' : (z.amidst s).memo.find? node = none :=
          hs.forgotten node (hresolving ▸ contains_iff_mem.mp hc)
        have hc' : (z.amidst s).resolving.contains node = true := hc
        refine ⟨?_, hs⟩
        simp only [remembered_perform, hmemo', hc', hk, if_true]

theorem resolveWithin_ok_again (node : NodeId) (hroom : stack.length + room = limit)
    (hs : Failing limit z broken stack sweeps s) :
    AnswersAgain limit z broken stack sweeps s (resolveWithin x limit room node) := by
  intro types t hpass hrun hlater
  cases room with
  | zero => exact remembered_ok_again hs hlater hrun fun _ _ => nofun
  | succ room =>
    refine remembered_ok_again hs hlater hrun fun hmemo hc hframed => ?_
    have hnode := hs.rests.not_mem_of_contains hc
    have hinner : (node :: stack).length + room = limit := by rw [length_cons]; omega
    have hdepths := hs.rests.depths_le
    have hpushed := hs.rests.push hnode (by omega)
    obtain ⟨hcourse, -⟩ := (hpass.of_remembered hmemo hc).of_framed
    have hsettled := settled_of_passes (Keeps.interpret (answer_granted (confined_granted limit _ _)
      (resolveWithin_confined x hinner) ⟨Nat.le_refl _, Sweeps.above_self _ sweeps⟩
      (fun w hw => Nat.lt_succ_of_le (hdepths w hw)) (Nat.succ_le_succ (Nat.zero_le _))) _) hpushed hs.settled
      hs.broken_off hcourse
    have hrests := (resolveWithin_rests x limit (room + 1) node stack sweeps hroom).perform hs.rests
    rw [hrun] at hrests
    rw [framed_perform] at hframed
    simp only [Prod.mk.injEq] at hframed
    obtain ⟨hfound, rfl⟩ := hframed
    obtain ⟨hunsettled, hmemo⟩ := leave_of_settled hsettled node (some types)
    rw [hfound] at hrests ⊢
    exact ⟨hrests, hunsettled, hmemo types rfl⟩

/-- A scope whose sweep came to its end, now or before, counts as swept. -/
theorem mem_swept_of_sweep {types : NodeId → Inquiry TypeSet} {scope : NodeId}
    (hcontains : Sweeps.contains s.sweeps scope = false) (hrun : (sweep x types scope).run.perform s = (.ok (), t)) :
    scope ∈ t.swept := by
  rw [sweep_perform] at hrun
  split at hrun
  · obtain ⟨hok, rfl⟩ := Prod.mk.inj hrun
    rw [hok]
    exact mem_cons_self
  · next hnot =>
    obtain ⟨-, rfl⟩ := Prod.mk.inj hrun
    rw [beginSweep_of_not (Bool.eq_false_iff.mpr hnot)]
    by_contra hnew
    rw [beginSweep_of_new hnew hcontains] at hnot
    exact hnot rfl

/-- A variable that was read on the way is read in a scope that counts as swept afterwards. -/
theorem readVariable_ok_again {scope : NodeId} {name : String} (hroom : stack.length + room = limit)
    (hdepths : ∀ w ∈ sweeps, w.depth < stack.length) (hnode : node ∈ stack)
    (hs : Failing limit z broken stack sweeps s) :
    AnswersAgain limit z broken stack sweeps s (readVariable x (resolveWithin x limit room) node scope name) := by
  intro types t hpass hrun hlater
  have hpos : 1 ≤ stack.length := length_pos_of_mem hnode
  have ht : Failing limit z broken stack sweeps t := by
    have hrests := (readVariable_keeps (x := x) (fun sweeps n => resolveWithin_rests x limit room n stack sweeps hroom)
      hdepths hpos node scope name).perform hs.rests
    have hsettled := settled_of_passes (readVariable_granted (confined_granted limit _ _)
      (resolveWithin_confined x hroom) ⟨Nat.le_refl _, Sweeps.above_self _ sweeps⟩ hdepths hpos node scope name)
      hs.rests hs.settled hs.broken_off hpass
    rw [hrun] at hrests hsettled
    exact ⟨hrests, hsettled, hs.forgotten, hs.broken_off⟩
  have hcontains := hs.not_contains hpass.of_act.1
  rw [readVariable_perform, readAhead_of_not_contains hcontains] at hrun
  dsimp only at hrun
  rcases hsweep : (sweep x (resolveWithin x limit room) scope).run.perform s with ⟨r, u⟩
  rw [hsweep] at hrun
  cases r with
  | error e => cases hrun
  | ok _ =>
    obtain ⟨htypes, rfl⟩ := Prod.mk.inj hrun
    have hskip : (z.amidst s).beginSweep scope = (false, z.amidst s) :=
      beginSweep_of_swept (hlater.swept (mem_swept_of_sweep hcontains hsweep))
    have hforgotten := hs.forgotten node hnode
    have hread : u.readBehind node = (z.amidst s).readBehind node := by
      rw [readBehind, readBehind, hlater.grows.memo node hforgotten]
      exact congrArg (fun o : Option TypeSet => o.getD {}) hforgotten.symm
    have hcontains' : Sweeps.contains (z.amidst s).sweeps scope = false := hcontains
    rw [readVariable_perform, readAhead_of_not_contains hcontains', sweep_perform, hskip, ← htypes, hread,
      amidst_eq_of_rests hs.rests ht.rests]
    exact ⟨rfl, ht⟩

/-! ### Errors that are made again -/

/-- Where `i` fails on the way to the error, `i'` fails with the same error later. -/
def FailsAgain {α : Type} (z : Session) (broken : List NodeId) (s : Session) (i i' : Inquiry α) : Prop :=
  ∀ ⦃e t⦄, i.Passes (Act.Recoverable z broken) s → i.run.perform s = (.error e, t) → t.lasting = z.lasting →
    i'.run.perform (z.amidst s) = (.error e, z.amidst t)

/-- A question and what follows it fail again, if the answer fails again and, where it is given again, what follows it
does. -/
theorem ask_fails_again {Q : Type} [Questions Q] {α : Type} {answer : (q : Q) → Inquiry (Questions.Answer q)}
    {inv : Session → Prop} (hkeeps : ∀ q, Keeps (Act.InOrder limit) inv (answer q)) {q : Q}
    {next next' : Questions.Answer q → Dialogue Q α} (hs : inv s) (herror : FailsAgain z broken s (answer q) (answer q))
    (hok : ∀ a u, (answer q).Passes (Act.Recoverable z broken) s → (answer q).run.perform s = (.ok a, u) →
      u.Precedes z → ∃ a', (answer q).run.perform (z.amidst s) = (.ok a', z.amidst u) ∧
        FailsAgain z broken u ((next a).interpret answer) ((next' a').interpret answer)) :
    FailsAgain z broken s ((Dialogue.ask q next).interpret answer) ((Dialogue.ask q next').interpret answer) := by
  intro e t hpass hrun hend
  rw [Dialogue.interpret] at hpass hrun ⊢
  obtain ⟨hanswer, hrest⟩ := hpass.of_bind
  rw [perform_bind] at hrun ⊢
  rcases hq : (answer q).run.perform s with ⟨r, u⟩
  rw [hq] at hrun
  cases r with
  | error e' =>
    obtain ⟨⟨⟩, rfl⟩ := Prod.mk.inj hrun
    rw [herror hanswer hq hend]
  | ok a =>
    dsimp only at hrun
    have hu := (hkeeps q).perform hs
    rw [hq] at hu
    have hlater : u.Precedes z := by
      refine Precedes.of_meets (Keeps.interpret hkeeps (next a) u hu) (precedes_of_lasting ?_)
      rw [hrun]
      exact hend
    obtain ⟨a', hagain, hnext⟩ := hok a u hanswer hq hlater
    rw [hagain]
    exact hnext (hrest a u hq) hrun hend

section Errors

variable (hroom : stack.length + room = limit)
  (htypes : ∀ {sweeps : Sweeps} {s : Session} (node : NodeId), Failing limit z broken stack sweeps s →
    FailsAgain z broken s (resolveWithin x limit room node) (resolveWithin x limit room node))

include hroom htypes

/-- A sweep that was broken off fails at the same step again. -/
theorem sweeping_fails_again {α : Type} (d : Sweeping α) {scope : NodeId} {v : Variables} (hv : v.scope = scope)
    (hs : Failing limit z broken stack (⟨v, stack.length⟩ :: sweeps) s) :
    FailsAgain z broken s (d.interpret (answerSweep (resolveWithin x limit room)))
      (d.interpret (answerSweep (resolveWithin x limit room))) := by
  induction d generalizing s v with
  | done a => exact fun _ _ _ => nofun
  | ask q next ih =>
    have hkeeps : ∀ q, Keeps (Act.InOrder limit) (Amid limit stack sweeps scope)
        (answerSweep (resolveWithin x limit room) q) :=
      answerSweep_keeps fun sweeps n => resolveWithin_rests x limit room n stack sweeps hroom
    refine ask_fails_again hkeeps ⟨v, hv, hs.rests⟩ ?_ ?_
    · cases q with
      | types n => exact htypes n hs
      | _ => exact fun _ _ _ => nofun
    · intro a u hpass hq hlater
      cases q with
      | types n =>
        obtain ⟨hagain, hu⟩ := resolveWithin_ok_again n hroom hs hpass hq hlater
        exact ⟨a, hagain, ih a hv hu⟩
      | isResolving n =>
        cases hq
        exact ⟨_, rfl, ih _ hv hs⟩
      | current =>
        cases hq
        exact ⟨_, rfl, ih _ hv hs⟩
      | change g =>
        cases hq
        exact ⟨_, rfl, ih _ (v := v.change g) hv
          ⟨hs.rests.modifyVariables g, hs.settled, hs.forgotten,
            forall_mem_cons.mpr (forall_mem_cons.mp hs.broken_off)⟩⟩
      | read n name =>
        cases hq
        have hu := hs.of_underway (underway_rememberRead s n name)
        have hskip : (z.amidst s).rememberRead n name = z.amidst s :=
          rememberRead_of_remembered fun hnone => s.find?_rememberRead_ne_none n name (hlater.grows.memo n hnone)
        refine ⟨(), ?_, ih _ hv hu⟩
        change (Except.ok (), (z.amidst s).rememberRead n name) = _
        rw [hskip, amidst_eq_of_rests hs.rests hu.rests]

variable (hdepths : ∀ w ∈ sweeps, w.depth < stack.length) (hpos : 1 ≤ stack.length)

include hdepths hpos

theorem sweep_fails_again (scope : NodeId) (hs : Failing limit z broken stack sweeps s) :
    FailsAgain z broken s (sweep x (resolveWithin x limit room) scope)
      (sweep x (resolveWithin x limit room) scope) := by
  intro e t hpass hrun hend
  rw [sweep_perform] at hrun ⊢
  cases hbegun : (s.beginSweep scope).1 with
  | false => simp [hbegun] at hrun
  | true =>
    obtain ⟨hcourse, hlast⟩ := hpass.of_sweep hbegun
    simp only [hbegun, if_true] at hrun
    rcases hinner : ((Sweeping.scope x scope).interpret (answerSweep (resolveWithin x limit room))).run.perform
      (s.beginSweep scope).2 with ⟨r, u⟩
    rw [hinner] at hrun hlast
    obtain ⟨rfl, rfl⟩ := Prod.mk.inj hrun
    obtain ⟨hnew, hfree⟩ := new_of_beginSweep hbegun
    have hrests := hs.rests.beginSweep hdepths hpos hbegun
    have hstart := beginSweep_of_new hnew hfree
    rw [hstart] at hrests hcourse hinner
    have hfailing : Failing limit z broken stack (⟨{ scope }, stack.length⟩ :: sweeps)
        { s with sweeps := Sweeps.enter s.sweeps scope s.stack.length } :=
      ⟨hrests, hs.settled, hs.forgotten, forall_mem_cons.mpr ⟨hlast.broken_off scope rfl, hs.broken_off⟩⟩
    -- The scope does not count as swept when its sweep is broken off, so the sweep begins again.
    have hnew' : scope ∉ (z.amidst s).swept := by
      have hunswept := unswept_of_sweeping (x := x) hroom ⟨{ scope }, rfl, hrests⟩ hnew
      have hswept : u.swept = z.swept := congrArg (fun l => l.2.1) hend
      rw [hinner] at hunswept
      exact hswept ▸ hunswept
    have hagain := sweeping_fails_again hroom htypes _ rfl hfailing hcourse hinner hend
    have hstart' : (z.amidst s).beginSweep scope =
        (true, z.amidst { s with sweeps := Sweeps.enter s.sweeps scope s.stack.length }) :=
      beginSweep_of_new hnew' hfree
    simp only [hstart', if_true, hagain]
    rfl

theorem readVariable_fails_again (node scope : NodeId) (name : String) (hs : Failing limit z broken stack sweeps s) :
    FailsAgain z broken s (readVariable x (resolveWithin x limit room) node scope name)
      (readVariable x (resolveWithin x limit room) node scope name) := by
  intro e t hpass hrun hend
  have hcontains := hs.not_contains hpass.of_act.1
  have hcontains' : Sweeps.contains (z.amidst s).sweeps scope = false := hcontains
  have hrest := hpass.of_act.2
  simp only [Act.perform, readAhead_of_not_contains hcontains] at hrest
  rw [readVariable_perform, readAhead_of_not_contains hcontains] at hrun
  dsimp only at hrun
  rcases hsweep : (sweep x (resolveWithin x limit room) scope).run.perform s with ⟨r, u⟩
  rw [hsweep] at hrun
  cases r with
  | ok _ => cases hrun
  | error e' =>
    obtain ⟨⟨⟩, rfl⟩ := Prod.mk.inj hrun
    rw [readVariable_perform, readAhead_of_not_contains hcontains']
    dsimp only
    rw [sweep_fails_again hroom htypes hdepths hpos scope hs hrest.of_bind.1 hsweep hend]

/-- A strategy that failed fails at the same question again, even if it is told more writes. -/
theorem strategy_fails_again {α : Type} {d d' : Strategy α} {node : NodeId} {absent collected : List NodeId}
    (hasks : d.Asks x.forest node absent collected) (hcovers : d.Covers (z.writesTo node) d')
    (hguarded : z.WritesGuarded x.forest) (hnode : node ∈ stack) (hs : Failing limit z broken stack sweeps s)
    (hcollected : collected ⊆ s.collected) :
    FailsAgain z broken s (d.interpret (answer x (resolveWithin x limit room)))
      (d'.interpret (answer x (resolveWithin x limit room))) := by
  induction d generalizing d' absent collected s with
  | done a => exact fun _ _ _ => nofun
  | ask q next ih =>
    obtain ⟨next', rfl, hnext'⟩ := hcovers
    have hkeeps : ∀ q, Keeps (Act.InOrder limit) (Rests limit stack sweeps) (answer x (resolveWithin x limit room) q) :=
      answer_keeps (fun sweeps n => resolveWithin_rests x limit room n stack sweeps hroom) hdepths hpos
    refine ask_fails_again hkeeps hs.rests ?_ ?_
    · cases q with
      | types n => exact htypes n hs
      | read n scope name => exact readVariable_fails_again hroom htypes hdepths hpos n scope name hs
      | _ => exact fun _ _ _ => nofun
    · intro a u hpass hq hlater
      -- What was collected stays collected while the question is answered.
      have hgrown : collected ⊆ u.collected := by
        have hgrows := ((passes_iff.mp hpass).grows).atEnd.1
        rw [hq] at hgrows
        exact List.Subset.trans hcollected hgrows.collected
      cases q with
      | types n =>
        obtain ⟨hagain, hu⟩ := resolveWithin_ok_again n hroom hs hpass hq hlater
        exact ⟨a, hagain, ih a (hasks.2 a) (hnext' a a rfl) hu hgrown⟩
      | isResolving n =>
        obtain ⟨ha, rfl⟩ := Prod.mk.inj hq
        have hagain : (answer x (resolveWithin x limit room) (.isResolving n)).run.perform (z.amidst s) =
            (.ok a, z.amidst s) := Prod.ext ha rfl
        cases a with
        | true => exact ⟨true, hagain, ih true hasks.1 (hnext' _ _ rfl) hs hcollected⟩
        | false => exact ⟨false, hagain, ih false hasks.2 (hnext' _ _ rfl) hs hcollected⟩
      | read n scope name =>
        obtain ⟨⟨rfl, -⟩, hasks⟩ := hasks
        obtain ⟨hagain, hu⟩ := readVariable_ok_again hroom hdepths hnode hs hpass hq hlater
        exact ⟨a, hagain, ih a (hasks a) (hnext' a a rfl) hu hgrown⟩
      | collect c =>
        cases hq
        have hu := hs.of_underway (underway_collect x.forest s c)
        have hmem := s.collected_subset_collect x.forest c
        have hskip : (z.amidst s).collect x.forest c = z.amidst s := collect_of_mem (hlater.grows.collected hmem.2)
        refine ⟨(), ?_, ih () hasks (hnext' () () rfl) hu (cons_subset.mpr ⟨hmem.2, hgrown⟩)⟩
        change (Except.ok (), (z.amidst s).collect x.forest c) = _
        rw [hskip, amidst_eq_of_rests hs.rests hu.rests]
      | writesTo decl =>
        cases hq
        obtain ⟨⟨rfl, -⟩, hasks⟩ := hasks
        have hfirst := hlater.writesTo decl
        refine ⟨z.writesTo decl, rfl, ih _ (hasks _ fun w hw => ?_) (hnext' _ _ ⟨hfirst, rfl⟩) hs hcollected⟩
        exact hguarded.writesTo decl w (hfirst.subset hw)
      | looseWrites owner name =>
        cases hq
        have heq := hlater.looseWrites owner (hcollected hasks.1) name
        refine ⟨z.looseWrites owner name, rfl, ih _ (hasks.2 _ ?_) (hnext' _ _ heq) hs hcollected⟩
        rw [heq]
        exact hguarded.looseWrites owner name

end Errors

theorem remembered_fails_again {f : Forest} {i : Inquiry TypeSet} {e : ResolveError}
    (hend : t.lasting = z.lasting) (hrun : (remembered f node i).run.perform s = (.error e, t))
    (hopen : s.memo.find? node = none → s.resolving.contains node = false → i.run.perform s = (.error e, t) →
      z.memo.find? node = none ∧ i.run.perform (z.amidst s) = (.error e, z.amidst t)) :
    (remembered f node i).run.perform (z.amidst s) = (.error e, z.amidst t) := by
  rw [remembered_perform] at hrun
  cases hmemo : s.memo.find? node with
  | some found => simp [hmemo] at hrun
  | none =>
    cases hc : s.resolving.contains node with
    | false =>
      simp only [hmemo, hc, Bool.false_eq_true, if_false] at hrun
      obtain ⟨hmemo', hagain⟩ := hopen hmemo hc hrun
      have hmemo' : (z.amidst s).memo.find? node = none := hmemo'
      have hc' : (z.amidst s).resolving.contains node = false := hc
      simp only [remembered_perform, hmemo', hc', Bool.false_eq_true, if_false, hagain]
    | true =>
      simp only [hmemo, hc, if_true] at hrun
      cases hk : addsNothing (f.kind node) with
      | true => simp [hk] at hrun
      | false =>
        simp only [hk, Bool.false_eq_true, if_false, Prod.mk.injEq, Except.error.injEq] at hrun
        obtain ⟨rfl, rfl⟩ := hrun
        have hmemo' : (z.amidst s).memo.find? node = none :=
          (congrArg (fun l => l.1.find? node) hend.symm).trans hmemo
        have hc' : (z.amidst s).resolving.contains node = true := hc
        simp only [remembered_perform, hmemo', hc', hk, if_true, Bool.false_eq_true, if_false]
        rfl

/-- A node whose resolution failed fails again with the same error. -/
theorem resolveWithin_fails_again (hgathered : z.Gathered x.forest) (hz : z.unsettledFrom = none) (node : NodeId)
    (hroom : stack.length + room = limit) (hs : Failing limit z broken stack sweeps s) :
    FailsAgain z broken s (resolveWithin x limit room node) (resolveWithin x limit room node) := by
  induction room generalizing stack sweeps node s with
  | zero =>
    intro e t _ hrun hend
    refine remembered_fails_again hend hrun fun hmemo _ hthrown => ?_
    obtain ⟨⟨⟩, rfl⟩ := Prod.mk.inj hthrown
    exact ⟨(congrArg (fun l => l.1.find? node) hend.symm).trans hmemo, rfl⟩
  | succ room ih =>
    intro e t hpass hrun hend
    refine remembered_fails_again hend hrun fun hmemo hc hframed => ?_
    have hnode := hs.rests.not_mem_of_contains hc
    obtain ⟨hcourse, hlast⟩ := (hpass.of_remembered hmemo hc).of_framed
    rw [framed_perform] at hframed ⊢
    rcases hinner : ((Strategy.dispatch x node).interpret (answer x (resolveWithin x limit room))).run.perform
      (s.push node) with ⟨r, u⟩
    rw [hinner] at hframed hlast
    cases r with
    | ok found => cases hframed
    | error e' =>
      obtain ⟨⟨⟩, rfl⟩ := Prod.mk.inj hframed
      have hforgotten : z.memo.find? node = none := hlast.failed node rfl
      have hend' : u.lasting = z.lasting := (u.lasting_leave_none node).symm.trans hend
      have hdepths := hs.rests.depths_le
      have hinner' : (node :: stack).length + room = limit := by rw [length_cons]; omega
      have hagain := strategy_fails_again hinner' (fun n => ih n hinner') (fun w hw => Nat.lt_succ_of_le (hdepths w hw))
        (Nat.succ_le_succ (Nat.zero_le _)) (Strategy.dispatch_asks x node)
        (Strategy.dispatch_covers x node (hgathered.isProperty_or_isPromoted node)) hgathered.guarded mem_cons_self
        (hs.push hnode (by omega) hforgotten) (nil_subset _) hcourse hinner hend'
      refine ⟨hforgotten, ?_⟩
      rw [show (z.amidst s).push node = z.amidst (s.push node) from rfl, hagain]
      exact congrArg (Prod.mk _) (amidst_leave_none hz u node)

end Inquiry

/-! ## Failures are repeatable -/

/-- The nodes that were left because of an error. -/
def failedNodes (course : List (Act × Session)) : List NodeId :=
  course.filterMap fun e => match e.1 with
    | .leave node none => some node
    | _ => none

/-- The scopes whose sweep was broken off by an error. -/
def brokenSweeps (course : List (Act × Session)) : List NodeId :=
  course.filterMap fun e => match e.1 with
    | .endSweep scope false => some scope
    | _ => none

/-- The scopes that variables were read in ahead of the sweep. -/
def aheadOfSweeps (course : List (Act × Session)) : List NodeId :=
  course.filterMap fun e => match e.1 with
    | .readAhead scope _ => if Sweeps.contains e.2.sweeps scope then some scope else none
    | _ => none

namespace Index

variable {x : Index}

/-- The acts of a resolution after other nodes were resolved, each with the session that it finds. -/
def courseAfter (x : Index) (limit : Nat) (before : List NodeId) (node : NodeId) : List (Act × Session) :=
  (Inquiry.resolveWithin x limit limit node).run.course (x.resolveAll limit before {})

section

variable {limit : Nat} {before : List NodeId} {node : NodeId} {e : ResolveError}
  (h : x.failureAfter? limit before node = some e)
include h

theorem answerAfter_of_failureAfter? : x.answerAfter limit before node = .error e := by
  unfold failureAfter? at h
  split at h
  · next hanswer =>
    rw [hanswer, Option.some.inj h]
  · cases h

theorem run_of_failureAfter? : (x.resolve limit node).run.run (x.resolveAll limit before {}) =
    (.error e, x.resolveAll limit (before ++ [node]) {}) :=
  Prod.ext (answerAfter_of_failureAfter? h) (x.resolveAll_append limit before [node] {}).symm

end

/-- A failure is repeatable, if what is left of it does not get in its way: a resolution that failed fails again with
the same error and leaves the session as it is, whatever was resolved before, provided that nothing is remembered for
the nodes that failed and that no variable was read ahead of a sweep that was broken off. -/
theorem resolve_fails_again (x : Index) (limit : Nat) (before : List NodeId) (node : NodeId) {e : ResolveError}
    {z : Session} (h : (x.resolve limit node).run.run (x.resolveAll limit before {}) = (.error e, z))
    (hfailed : ∀ n ∈ failedNodes (x.courseAfter limit before node), z.memo.find? n = none)
    (hahead : ∀ scope ∈ aheadOfSweeps (x.courseAfter limit before node),
      scope ∉ brokenSweeps (x.courseAfter limit before node)) :
    (x.resolve limit node).run.run z = (.error e, z) := by
  have hidle := x.resolveAll_idle limit before Session.new_idle
  have hpass : (Inquiry.resolveWithin x limit limit node).Passes
      (Act.Recoverable z (brokenSweeps (x.courseAfter limit before node))) (x.resolveAll limit before {}) := by
    intro a ha
    refine ⟨fun n heq => hfailed n ?_, fun scope heq => ?_, fun scope name heq hc => hahead scope ?_⟩
    · exact List.mem_filterMap.mpr ⟨a, ha, by rw [heq]⟩
    · exact List.mem_filterMap.mpr ⟨a, ha, by rw [heq]⟩
    · exact List.mem_filterMap.mpr ⟨a, ha, by rw [heq]; exact if_pos hc⟩
  have hrun : (Inquiry.resolveWithin x limit limit node).run.perform (x.resolveAll limit before {}) = (.error e, z) := h
  have hz : z.Idle := by
    have hend := ((Dialogue.meets_iff _ _).mp (x.resolve_idle limit node hidle)).2
    rwa [hrun] at hend
  have hgathered : z.Gathered x.forest := by
    have hend := (Inquiry.resolveWithin_collected x limit limit node).perform (x.resolveAll_gathered limit before)
    rwa [hrun] at hend
  have hstart : Session.Failing limit z (brokenSweeps (x.courseAfter limit before node)) [] []
      (x.resolveAll limit before {}) :=
    ⟨Session.rests_nil_iff_idle.mpr hidle, hidle.unsettledFrom_eq, nofun, nofun⟩
  have hagain := Inquiry.resolveWithin_fails_again hgathered hz.unsettledFrom_eq node (Nat.zero_add limit) hstart hpass
    hrun rfl
  rwa [hz.amidst_eq hidle, hz.amidst_eq hz] at hagain

/-- A file whose sweep fails at the value of `$y`, after `$x` was read and before `$z` is. -/
def brokenFile : Index :=
  .ofProgram ("<?php\nclass A \x7b const C = self::D; const D = self::C; \x7d\n$x = 1;\n$x;\n$y = A::C;\n$z;\n")

/-- The sweep fails for `$z`, about which nothing is remembered, and for `$x`, which is remembered. -/
theorem brokenFile_fails : let e : ResolveError := .circular ["ClassConstant(C)", "ClassConstantFetch(D)",
      "ClassConstant(D)", "ClassConstantFetch(C)", "ClassConstant(C)"]
    (brokenFile.failureAfter? 40 [] 18 = some e ∧ brokenSweeps (brokenFile.courseAfter 40 [] 18) = [20] ∧
      aheadOfSweeps (brokenFile.courseAfter 40 [] 18) = [] ∧
      (failedNodes (brokenFile.courseAfter 40 [] 18)).all
        (fun n => ((brokenFile.resolveAll 40 [18] {}).memo.find? n).isNone) = true) ∧
    brokenFile.failureAfter? 40 [] 11 = some e ∧ aheadOfSweeps (brokenFile.courseAfter 40 [] 11) = [] ∧
      brokenFile.namesAfter? 40 [11] 11 = some ["int"] := by
  decide +kernel

theorem resolve_fails_again_brokenFile : let z := brokenFile.resolveAll 40 [18] {}
    let e : ResolveError := .circular ["ClassConstant(C)", "ClassConstantFetch(D)", "ClassConstant(D)",
      "ClassConstantFetch(C)", "ClassConstant(C)"]
    (brokenFile.resolve 40 18).run.run {} = (.error e, z) ∧ brokenSweeps (brokenFile.courseAfter 40 [] 18) = [20] ∧
      (brokenFile.resolve 40 18).run.run z = (.error e, z) := by
  obtain ⟨⟨hfailure, hbroken, hahead, hfailed⟩, -⟩ := brokenFile_fails
  have hrun := run_of_failureAfter? hfailure
  refine ⟨hrun, hbroken, resolve_fails_again brokenFile 40 [] 18 hrun (fun n hn => ?_) ?_⟩
  · exact Option.isNone_iff_eq_none.mp (List.all_eq_true.mp hfailed n hn)
  · rw [hahead]
    exact nofun

/-- A method whose sweep fails because of what `$z` was when `$this->p` was read; it is something else when the sweep
fails. -/
def brokenMethod : Index :=
  .ofProgram ("<?php\nclass A \x7b const C = self::C; function m() \x7b return self::C; \x7d \x7d\n" ++
    "class B \x7b function f() \x7b\n$z = new A;\n$y = $this->p;\n$z = 1;\n$this->p = $z;\n" ++
    "$u = $this->r->m();\n$this->r = $y;\n$v;\n\x7d \x7d\n")

/-- Not every failure is repeatable. A sweep that is broken off may have remembered the node that failed. Where it has
not, it may have remembered a variable that was read ahead of it before, with other types. -/
theorem failure_not_repeated :
    (brokenFile.failureAfter? 40 [] 11 = some (.circular ["ClassConstant(C)", "ClassConstantFetch(D)",
        "ClassConstant(D)", "ClassConstantFetch(C)", "ClassConstant(C)"]) ∧
      aheadOfSweeps (brokenFile.courseAfter 40 [] 11) = [] ∧ brokenFile.namesAfter? 40 [11] 11 = some ["int"]) ∧
    brokenMethod.failureAfter? 40 [] 39 = some (.circular ["ClassConstant(C)", "ClassConstantFetch(C)",
        "ClassConstant(C)"]) ∧
      (failedNodes (brokenMethod.courseAfter 40 [] 39)).all
        (fun n => ((brokenMethod.resolveAll 40 [39] {}).memo.find? n).isNone) = true ∧
      brokenMethod.namesAfter? 40 [39] 39 = some ["unknown<Variable>"] :=
  ⟨brokenFile_fails.2, by decide +kernel⟩

end Index

end EventAtlas
