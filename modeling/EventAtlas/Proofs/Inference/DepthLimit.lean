import EventAtlas.Proofs.Index.Table
import EventAtlas.Proofs.Inference.Unbounded

/-!
# The limit of the stack

The limit shows in one way only: a resolution that would need more room ends with an error that says so. No strategy
catches such an error and nothing is decided by the limit, so two resolutions with different limits go the same way
until the smaller limit is met (`Inquiry.Extends`). Where it is never met, a larger limit gives the same answers, errors
included, and leaves the same session.
-/

namespace EventAtlas

namespace Inquiry

variable {α β : Type}

/-- The inquiry ends in the session because there is no room left on the stack. -/
def OutOfRoom (i : Inquiry α) (s : Session) : Prop :=
  ∃ limit node, (i.run.perform s).1 = .error (.depthExceeded limit node)

/-- The inquiry `j` does all that `i` does, in every session where `i` has room. -/
def Extends (j i : Inquiry α) : Prop :=
  ∀ s, i.OutOfRoom s ∨ j.run.perform s = i.run.perform s

namespace Extends

protected theorem refl (i : Inquiry α) : Extends i i :=
  fun _ => .inr rfl

theorem throw_depthExceeded (j : Inquiry α) (limit : Nat) (node : String) :
    Extends j (throw (.depthExceeded limit node)) :=
  fun _ => .inl ⟨limit, node, rfl⟩

theorem bind {j i : Inquiry α} {k g : α → Inquiry β} (h : Extends j i) (hg : ∀ a, Extends (k a) (g a)) :
    Extends (j >>= k) (i >>= g) := by
  intro s
  obtain ⟨limit, node, hout⟩ | heq := h s
  · refine .inl ⟨limit, node, ?_⟩
    rw [perform_bind]
    rcases hi : i.run.perform s with ⟨r, s'⟩
    rw [hi] at hout
    obtain rfl : r = _ := hout
    rfl
  · rw [OutOfRoom, perform_bind, perform_bind, heq]
    rcases i.run.perform s with ⟨r, s'⟩
    cases r with
    | ok a => exact hg a s'
    | error e => exact .inr rfl

theorem interpret {Q : Type} [Questions Q] {more less : (q : Q) → Inquiry (Questions.Answer q)}
    (h : ∀ q, Extends (more q) (less q)) (d : Dialogue Q α) : Extends (d.interpret more) (d.interpret less) := by
  induction d with
  | done a => exact .refl _
  | ask q next ih => exact (h q).bind ih

theorem remembered {f : Forest} {node : NodeId} {j i : Inquiry TypeSet} (h : Extends j i) :
    Extends (remembered f node j) (remembered f node i) := by
  refine .bind (.refl _) fun found => ?_
  cases found with
  | some types => exact .refl _
  | none =>
    refine .bind (.refl _) fun resolving => ?_
    cases resolving with
    | true => exact .refl _
    | false => exact h

theorem framed {f : Forest} {node : NodeId} {j i : Inquiry TypeSet} (h : Extends j i) :
    Extends (framed f node j) (framed f node i) := by
  intro s
  rw [OutOfRoom, framed_perform, framed_perform]
  obtain ⟨limit, n, hout⟩ | heq := h (s.push node)
  · refine .inl ⟨limit, n, ?_⟩
    rw [hout]
    rfl
  · rw [heq]
    exact .inr rfl

section Answers

variable {x : Index} {more less : NodeId → Inquiry TypeSet} (h : ∀ node, Extends (more node) (less node))

include h

theorem answerSweep (q : SweepQuestion) : Extends (answerSweep more q) (answerSweep less q) := by
  cases q with
  | types node => exact h node
  | _ => exact .refl _

theorem sweep (scope : NodeId) : Extends (sweep x more scope) (sweep x less scope) := by
  intro s
  rw [OutOfRoom, sweep_perform, sweep_perform]
  split
  · obtain ⟨limit, n, hout⟩ | heq := interpret (answerSweep h) (Sweeping.scope x scope) (s.beginSweep scope).2
    · exact .inl ⟨limit, n, hout⟩
    · rw [heq]
      exact .inr rfl
  · exact .inr rfl

theorem answer (q : NodeQuestion) : Extends (answer x more q) (answer x less q) := by
  cases q with
  | types node => exact h node
  | read node scope name =>
    refine .bind (.refl _) fun found => ?_
    cases found with
    | some found => exact .refl _
    | none => exact .bind (sweep h scope) fun _ => .refl _
  | _ => exact .refl _

end Answers

end Extends

/-- More room, with whatever limit, changes nothing until the room is used up. -/
theorem resolveWithin_extends (x : Index) (limit limit' : Nat) {room room' : Nat} (h : room ≤ room') (node : NodeId) :
    Extends (resolveWithin x limit' room' node) (resolveWithin x limit room node) := by
  induction room generalizing room' node with
  | zero =>
    cases room' with
    | zero => exact .remembered (.throw_depthExceeded _ _ _)
    | succ room' => exact .remembered (.throw_depthExceeded _ _ _)
  | succ room ih =>
    cases room' with
    | zero => exact absurd h (Nat.not_succ_le_zero room)
    | succ room' => exact .remembered (.framed (.interpret (.answer fun n => ih (Nat.le_of_succ_le_succ h) n) _))

end Inquiry

namespace Index

variable {x : Index}

/-- The answers for nodes that are resolved one after the other. -/
def answers (x : Index) (limit : Nat) : List NodeId → Session → List (Except ResolveError TypeSet)
  | [], _ => []
  | node :: rest, s =>
    ((x.resolve limit node).run.run s).1 :: x.answers limit rest ((x.resolve limit node).run.run s).2

theorem resolve_eq_of_le {limit limit' : Nat} (h : limit ≤ limit') (node : NodeId) (s : Session)
    (hroom : ∀ l n, ((x.resolve limit node).run.run s).1 ≠ .error (.depthExceeded l n)) :
    (x.resolve limit' node).run.run s = (x.resolve limit node).run.run s := by
  obtain ⟨l, n, hout⟩ | heq := Inquiry.resolveWithin_extends x limit limit' h node s
  · exact absurd hout (hroom l n)
  · exact heq

/-- A larger limit never changes an answer. Where nodes are resolved one after the other and no resolution meets the
limit, a larger limit gives the same types and the same errors for all of them, and leaves the same session, with
everything that it remembers. -/
theorem answers_eq_of_le {limit limit' : Nat} (h : limit ≤ limit') (nodes : List NodeId) (s : Session)
    (hroom : ∀ r ∈ x.answers limit nodes s, ∀ l n, r ≠ .error (.depthExceeded l n)) :
    x.answers limit' nodes s = x.answers limit nodes s ∧ x.resolveAll limit' nodes s = x.resolveAll limit nodes s := by
  induction nodes generalizing s with
  | nil => exact ⟨rfl, rfl⟩
  | cons node rest ih =>
    obtain ⟨hnode, hrest⟩ := List.forall_mem_cons.mp hroom
    obtain ⟨hanswers, hsession⟩ := ih _ hrest
    rw [answers, answers, resolveAll, resolveAll, List.foldl_cons, List.foldl_cons, resolve_eq_of_le h node s hnode,
      hanswers]
    exact ⟨rfl, hsession⟩

/-- Constants that name each other, and a method that is called in its own body. -/
def constantsAndCalls : List (String × String) :=
  [("a.php", "<?php\nclass A \x7b const C = self::D; const D = A::C;\n" ++
    "function m(A $a) \x7b $b = $this->m($a); return $a; \x7d \x7d\n$x = new A; $x->m($x);\n")]

theorem answers_eq_of_le_constantsAndCalls : let x := ofPrograms constantsAndCalls
    (x.answers 5 [5, 15, 28] {}).map (Except.map TypeSet.names) =
      [.error (.circular ["ClassConstant(D)", "ClassConstantFetch(C)", "ClassConstant(C)", "ClassConstantFetch(D)",
        "ClassConstant(D)"]), .ok ["A"], .ok ["unknown<Method>"]] ∧
    x.answers 512 [5, 15, 28] {} = x.answers 5 [5, 15, 28] {} ∧
    x.resolveAll 512 [5, 15, 28] {} = x.resolveAll 5 [5, 15, 28] {} := by
  have hanswers : ((ofPrograms constantsAndCalls).answers 5 [5, 15, 28] {}).map (Except.map TypeSet.names) =
      [.error (.circular ["ClassConstant(D)", "ClassConstantFetch(C)", "ClassConstant(C)", "ClassConstantFetch(D)",
        "ClassConstant(D)"]), .ok ["A"], .ok ["unknown<Method>"]] := by
    decide +kernel
  refine ⟨hanswers, answers_eq_of_le (by decide) [5, 15, 28] {} fun r hr l n heq => ?_⟩
  have hmem := List.mem_map_of_mem (f := Except.map TypeSet.names) hr
  rw [hanswers, heq] at hmem
  simp [Except.map] at hmem

end Index

end EventAtlas
