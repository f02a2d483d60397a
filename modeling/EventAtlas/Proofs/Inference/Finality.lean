import EventAtlas.Proofs.Inference.Bracketing

/-!
# Answers are final

What is remembered changes by two acts only: a node that is left is remembered with its types, and the sweep of a scope
remembers the variables that it reads. A node is only left after it was entered, it is only entered while nothing is
remembered for it, and a sweep does not replace anything. So what is remembered for a node that is not on the stack
stays. What is remembered is never empty.

The node for which a resolution began is left settled, so its types are remembered.
-/

namespace EventAtlas

namespace Session

/-- No remembered set of types is empty. -/
def RemembersTypes (s : Session) : Prop :=
  ∀ node types, s.memo.find? node = some types → types.isEmpty = false

/-- These types are remembered for a node that is not on the stack. -/
def Remembers (node : NodeId) (types : TypeSet) (s : Session) : Prop :=
  s.memo.find? node = some types ∧ node ∉ s.stack

end Session

/-- What an act does to the memory. -/
theorem Act.memo_perform (a : Act) (s : Session) :
    (a.perform s).2.memo = s.memo ∨
      (∃ node t, a = .leave node (some t) ∧ (a.perform s).2.memo = s.memo.insert node t) ∨
        ∃ node name, ∃ t : TypeSet, a = .rememberRead node name ∧ t.isEmpty = false ∧ s.memo.find? node = none ∧
          (a.perform s).2.memo = s.memo.insert node t := by
  have h := a.perform_makes s
  generalize (a.perform s).2 = t at h ⊢
  cases h with
  | leave node types memo _ hmemo =>
    obtain hmemo | ⟨t, rfl, hmemo⟩ := hmemo
    · exact .inl hmemo
    · exact .inr (.inl ⟨node, t, rfl, hmemo⟩)
  | read node name types hnonempty hnew => exact .inr (.inr ⟨node, name, types, rfl, hnonempty, hnew, rfl⟩)
  | _ => exact .inl rfl

/-- What an act does to the stack. -/
theorem Act.stack_perform (a : Act) (s : Session) :
    (∃ node, a = .enter node ∧ (a.perform s).2.stack = node :: s.stack) ∨ (a.perform s).2.stack ⊆ s.stack := by
  have h := a.perform_makes s
  generalize (a.perform s).2 = t at h ⊢
  cases h with
  | enter node => exact .inl ⟨node, rfl, rfl⟩
  | leave => exact .inr (List.drop_subset 1 s.stack)
  | _ => exact .inr (List.Subset.refl _)

namespace Session

variable {limit : Nat}

theorem RemembersTypes.perform {a : Act} {s : Session} (horder : a.InOrder limit s) (h : s.RemembersTypes) :
    (a.perform s).2.RemembersTypes := by
  -- Whatever is put into the memory is not empty.
  have hinsert : ∀ node (t : TypeSet), t.isEmpty = false → (a.perform s).2.memo = s.memo.insert node t →
      (a.perform s).2.RemembersTypes := by
    intro node t ht hmemo n types hn
    rw [hmemo] at hn
    by_cases heq : n = node
    · subst heq
      rw [Sorted.find?_insert_self] at hn
      cases hn
      exact ht
    · rw [Sorted.find?_insert_of_ne _ _ heq] at hn
      exact h n types hn
  obtain hmemo | ⟨node, t, rfl, hmemo⟩ | ⟨node, -, t, -, ht, -, hmemo⟩ := a.memo_perform s
  · intro n types hn
    rw [hmemo] at hn
    exact h n types hn
  · exact hinsert node t (horder.leave_nonempty node t rfl) hmemo
  · exact hinsert node t ht hmemo

theorem Remembers.perform {a : Act} {s : Session} {node : NodeId} {types : TypeSet} (horder : a.InOrder limit s)
    (h : s.Remembers node types) : (a.perform s).2.Remembers node types := by
  obtain ⟨hfind, hstack⟩ := h
  constructor
  · obtain hmemo | ⟨n, t, rfl, hmemo⟩ | ⟨n, -, t, -, -, hnone, hmemo⟩ := a.memo_perform s
    · rwa [hmemo]
    · -- The node that is left is on the stack.
      have hne : node ≠ n := by
        rintro rfl
        exact hstack (List.mem_of_mem_head? (horder.leave_innermost node _ rfl))
      rwa [hmemo, Sorted.find?_insert_of_ne _ _ hne]
    · have hne : node ≠ n := by
        rintro rfl
        rw [hfind] at hnone
        cases hnone
      rwa [hmemo, Sorted.find?_insert_of_ne _ _ hne]
  · obtain ⟨n, rfl, hpush⟩ | hsub := a.stack_perform s
    · rw [hpush, List.mem_cons, not_or]
      refine ⟨?_, hstack⟩
      rintro rfl
      rw [(horder.enter_fresh node rfl).1] at hfind
      cases hfind
    · exact fun hmem => hstack (hsub hmem)

/-- The outermost node is left settled, so its types are remembered. -/
theorem Rests.memo_leave_outermost {s : Session} {node : NodeId} (h : Rests limit [node] [] s) (types : TypeSet) :
    (s.leave node (some types)).memo.find? node = some types := by
  have hnone : (s.pop node).unsettledFrom = none := by
    cases hd : s.unsettledFrom with
    | none => exact hd
    | some d =>
      have bounds := h.bracketed.unsettled_bounds d hd
      rw [h.stack_eq, List.length_singleton] at bounds
      omega
  have hsettle : (s.pop node).settle = (true, s.pop node) := by
    unfold settle
    rw [hnone]
  unfold Session.leave
  rw [hsettle]
  exact Sorted.find?_insert_self _ _ _

end Session

namespace Inquiry

open Session

/-- Types that an idle session gives for a node are remembered for it. -/
theorem resolveWithin_remembers (x : Index) (limit : Nat) (node : NodeId) {s : Session} (h : s.Idle) :
    (resolveWithin x limit limit node).run.Meets (fun _ _ => True)
      (fun r s => ∀ types, r = .ok types → s.memo.find? node = some types) s := by
  have hrests : Rests limit [] [] s := rests_nil_iff_idle.mpr h
  have hidle : node ∉ s.resolving := by rw [h.resolving_eq]; exact List.not_mem_nil
  cases limit with
  | zero =>
    refine remembered_watched trivial trivial trivial (fun _ hmemo _ hr => ?_) (fun _ hmem => absurd hmem hidle)
      (fun _ hmem => absurd hmem hidle) fun _ _ => nofun
    cases hr
    exact hmemo
  | succ room =>
    refine remembered_watched trivial trivial trivial (fun _ hmemo _ hr => ?_) (fun _ hmem => absurd hmem hidle)
      (fun _ hmem => absurd hmem hidle) fun _ _ => ?_
    · cases hr
      exact hmemo
    · have hanswer : ∀ q, Keeps (Act.InOrder (room + 1)) (Rests (room + 1) [node] [])
          (answer x (resolveWithin x (room + 1) room) q) :=
        answer_keeps (fun sweeps n => resolveWithin_rests x _ room n [node] sweeps (by rw [List.length_singleton]; omega))
          nofun (Nat.le_refl 1)
      have hframe : Rests (room + 1) [node] [] (s.push node) := hrests.push List.not_mem_nil (Nat.zero_lt_succ room)
      rw [framed_watched]
      refine ⟨trivial, (Keeps.interpret hanswer _ _ hframe).imp (fun _ _ _ _ => trivial) fun r s _ hs => ⟨trivial, ?_⟩⟩
      rintro types hr
      cases r with
      | error e => cases hr
      | ok found =>
        cases hr
        exact hs.memo_leave_outermost _

/-- A node with remembered types has these, and nothing else happens. -/
theorem resolveWithin_of_memo (x : Index) (limit room : Nat) {node : NodeId} {types : TypeSet} {s : Session}
    (h : s.memo.find? node = some types) : (resolveWithin x limit room node).run.perform s = (.ok types, s) := by
  have hremembered : ∀ resolve : Inquiry TypeSet,
      (remembered x.forest node resolve).run.perform s = (.ok types, s) := by
    intro resolve
    have hmeets : (remembered x.forest node resolve).run.Meets (fun _ _ => True)
        (fun r s' => r = .ok types ∧ s' = s) s := by
      refine remembered_watched trivial trivial trivial (fun t ht => ?_) ?_ ?_ ?_
      · rw [h, Option.some.injEq] at ht
        exact ⟨congrArg Except.ok ht.symm, rfl⟩
      all_goals
        intro hnone
        rw [h] at hnone
        cases hnone
    obtain ⟨hresult, hsession⟩ := hmeets.atEnd
    exact Prod.ext hresult hsession
  cases room <;> exact hremembered _

end Inquiry

namespace Index

variable {x : Index} {limit : Nat}

/-- What acts in order keep is kept by resolutions. -/
theorem resolveAll_keeps (inv : Session → Prop)
    (hstep : ∀ a s, Act.InOrder limit a s → inv s → inv (a.perform s).2) (nodes : List NodeId) {s : Session}
    (hidle : s.Idle) (hs : inv s) : inv (x.resolveAll limit nodes s) := by
  refine (resolveAll_invariant (fun s => s.Idle ∧ inv s) ?_ nodes ⟨hidle, hs⟩).2
  rintro s node ⟨hidle, hs⟩
  have hrun := x.resolve_idle limit node hidle
  exact ⟨hrun.atEnd, hrun.invariant hstep hs⟩

/-- Types that were given for a node once are not empty. They are given for it again, whatever was resolved in between,
and giving them again leaves the session as it is. -/
theorem resolve_final (x : Index) (limit : Nat) (before between : List NodeId) (node : NodeId) (types : TypeSet)
    (h : ((x.resolve limit node).run.run (x.resolveAll limit before {})).1 = .ok types) :
    types.isEmpty = false ∧
      let s := x.resolveAll limit (before ++ node :: between) {}
      (x.resolve limit node).run.run s = (.ok types, s) := by
  have hidle := x.resolveAll_idle limit before Session.new_idle
  have hgiven : (x.resolveAll limit [node] (x.resolveAll limit before {})).memo.find? node = some types :=
    ((Dialogue.meets_iff _ _).mp (Inquiry.resolveWithin_remembers x limit node hidle)).2 types h
  have hidle' := x.resolveAll_idle limit [node] hidle
  rw [← resolveAll_append] at hgiven hidle'
  constructor
  · have hmemo : (x.resolveAll limit (before ++ [node]) {}).RemembersTypes :=
      resolveAll_keeps Session.RemembersTypes (fun _ _ => .perform) _ Session.new_idle nofun
    exact hmemo node types hgiven
  · have hstays : (x.resolveAll limit between (x.resolveAll limit (before ++ [node]) {})).Remembers node types :=
      resolveAll_keeps (Session.Remembers node types) (fun _ _ => .perform) between hidle'
        ⟨hgiven, by rw [hidle'.stack_eq]; exact List.not_mem_nil⟩
    rw [← resolveAll_append, List.append_assoc, List.singleton_append] at hstays
    exact Inquiry.resolveWithin_of_memo x limit limit hstays.1

/-- A variable whose value is read from another one. -/
def copiedVariable : Index :=
  .ofProgram "<?php\n$x = 1;\n$y = $x;\n$y;\n"

theorem resolve_final_copiedVariable : ∃ types,
    copiedVariable.answerAfter 512 [5] 8 = .ok types ∧ types.isEmpty = false ∧
      let s := copiedVariable.resolveAll 512 ([5] ++ 8 :: [6, 4]) {}
      (copiedVariable.resolve 512 8).run.run s = (.ok types, s) := by
  have hnames : copiedVariable.namesAfter? 512 [5] 8 = some ["unknown<Variable>"] := by decide +kernel
  obtain ⟨types, h, -⟩ := answerAfter_of_namesAfter? hnames
  exact ⟨types, h, resolve_final copiedVariable 512 [5] [6, 4] 8 types h⟩

end Index

end EventAtlas
