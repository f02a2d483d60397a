import EventAtlas.Proofs.Inference.Demands
import EventAtlas.Proofs.Inference.Retry

/-!
# What error reports say

A resolution fails because of one demand that is refused at once (`Demand.Refused`): the node is on the stack, or the
stack is full. From the node that was to be resolved a chain of demands leads there (`Demand.exists_chain_of_error`),
and the nodes of the chain are the stack of the refused demand. So the chain of a circular reference is a part of the
dependencies that were followed, from a node back to itself.
-/

namespace EventAtlas

open List Inquiry Session

/-- The nodes of a cycle are the upper part of the stack, from the node on, and the node again. -/
theorem Session.exists_cycle_eq {s : Session} {node : NodeId} (h : node ∈ s.stack) :
    ∃ below segment, s.stack.reverse = below ++ node :: segment ∧ s.cycle node = node :: segment ++ [node] := by
  obtain ⟨below, segment, hsplit, hnot⟩ := eq_append_cons_of_mem (mem_reverse.mpr h)
  have hbelow : ∀ n ∈ below, (n != node) = true := fun n hn => bne_iff_ne.mpr fun heq => hnot (heq ▸ hn)
  refine ⟨below, segment, hsplit, ?_⟩
  simp only [cycle, hsplit, dropWhile_append_of_pos hbelow, dropWhile_cons, bne_self_eq_false]
  rfl

namespace Demand

variable {x : Index} {limit : Nat} {d last : Demand} {path : List Demand} {e : ResolveError} {s : Session}

/-- The demand is refused before the strategy of its node is held, with this error. -/
inductive Refused (x : Index) (limit : Nat) (d : Demand) : ResolveError → Prop
  | circular (hresolving : d.node ∈ d.session.resolving) (hkind : addsNothing (x.forest.kind d.node) = false) :
      Refused x limit d (.circular ((d.session.cycle d.node).map fun n => (x.forest.kind n).display))
  | depthExceeded (hfull : d.session.stack.length = limit) :
      Refused x limit d (.depthExceeded limit (x.forest.kind d.node).display)

/-- A demand that fails is refused, or it opens and its strategy fails. -/
theorem refused_or_opens {i : Inquiry TypeSet}
    (h : (remembered x.forest d.node i).run.perform d.session = (.error e, s)) :
    d.Refused x limit e ∨
      d.session.memo.find? d.node = none ∧ d.node ∉ d.session.resolving ∧ i.run.perform d.session = (.error e, s) := by
  rw [remembered_perform] at h
  cases hmemo : d.session.memo.find? d.node with
  | some types =>
    rw [hmemo] at h
    cases h
  | none =>
    rw [hmemo] at h
    dsimp only at h
    split at h
    case isTrue hc =>
      split at h
      case isTrue => cases h
      case isFalse hk =>
        cases h
        exact .inl (.circular (contains_iff_mem.mp hc) (Bool.eq_false_iff.mpr hk))
    case isFalse hc => exact .inr ⟨rfl, fun hmem => hc (contains_iff_mem.mpr hmem), h⟩

/-- A sweep fails with the error of a node that it asks for. -/
theorem exists_asked_of_sweep_error {types : NodeId → Inquiry TypeSet} {sweeping : Sweeping PUnit} {t t' : Session}
    (h : (sweeping.interpret (answerSweep types)).run.perform t = (.error e, t')) :
    ∃ node u, (.types node, u) ∈ asked (answerSweep types) sweeping t ∧
      (types node).run.perform u = (.error e, t') := by
  obtain ⟨q, u, hasked, herror⟩ := exists_asked_of_error h
  cases q with
  | types node => exact ⟨node, u, hasked, herror⟩
  | _ => cases herror

/-- A strategy fails with the error of a demand that it makes. -/
theorem exists_makes_of_error (hopens : d.Opens limit)
    (h : ((Strategy.dispatch x d.node).interpret (answer x (d.resolver x limit))).run.perform (d.session.push d.node) =
      (.error e, s)) :
    ∃ d', Makes x limit d d' ∧ ∃ s', (d.resolver x limit d'.node).run.perform d'.session = (.error e, s') := by
  obtain ⟨q, t, hasked, herror⟩ := exists_asked_of_error h
  cases q with
  | types node => exact ⟨⟨node, t⟩, .itself hopens hasked, s, herror⟩
  | read node scope name =>
    -- Only the sweep that the read begins can fail.
    change (readVariable x (d.resolver x limit) node scope name).run.perform t = _ at herror
    rw [readVariable_perform] at herror
    cases hahead : (t.readAhead scope name).1 with
    | some found =>
      rw [hahead] at herror
      cases herror
    | none =>
      rw [hahead, readAhead_of_none hahead, sweep_perform] at herror
      dsimp only at herror
      split at herror
      next => cases herror
      next e' t' hsweep =>
      cases herror
      split at hsweep
      case isTrue hbegun =>
        obtain ⟨hfailed, -⟩ := Prod.mk.inj hsweep
        obtain ⟨node', u, hasked', herror'⟩ := exists_asked_of_sweep_error (Prod.ext hfailed rfl)
        exact ⟨⟨node', u⟩, .sweeping hopens ⟨node, name, t, hasked, hahead, hbegun, rfl⟩ hasked', _, herror'⟩
      case isFalse => cases hsweep
  | _ => cases herror

/-- A chain of demands leads from a demand that fails to one that is refused with the error. -/
theorem exists_chain_of_error (room : Nat) (hd : d.session.Bracketed limit)
    (hroom : d.session.stack.length + room = limit)
    (h : (resolveWithin x limit room d.node).run.perform d.session = (.error e, s)) :
    ∃ path last, (path ++ [last]).head? = some d ∧ (path ++ [last]).IsChain (Makes x limit) ∧
      last.Refused x limit e := by
  induction room generalizing d s with
  | zero =>
    refine ⟨[], d, rfl, .singleton d, ?_⟩
    obtain hrefused | ⟨-, -, hfull⟩ := refused_or_opens h
    · exact hrefused
    · cases hfull
      exact .depthExceeded hroom
  | succ room ih =>
    obtain hrefused | ⟨hmemo, hresolving, hframed⟩ := refused_or_opens h
    · exact ⟨[], d, rfl, .singleton d, hrefused⟩
    · have hopens : d.Opens limit := ⟨hmemo, hresolving, by omega⟩
      have hresolver : resolveWithin x limit room = d.resolver x limit := by
        rw [resolver, show limit - (d.session.stack.length + 1) = room by omega]
      rw [framed_perform, hresolver] at hframed
      rcases hrun : ((Strategy.dispatch x d.node).interpret (answer x (d.resolver x limit))).run.perform
        (d.session.push d.node) with ⟨r, t⟩
      rw [hrun] at hframed
      cases r with
      | ok found => cases hframed
      | error e' =>
        cases hframed
        obtain ⟨d', hmakes, s', herror⟩ := exists_makes_of_error hopens hrun
        have hrest := hmakes.rest hd
        obtain ⟨path, last, hhead, hchain, hrefused⟩ := ih hrest.1
          (by rw [hrest.2, length_cons]; omega) (hresolver ▸ herror)
        refine ⟨d :: path, last, rfl, ?_, hrefused⟩
        rw [cons_append, isChain_cons, hhead]
        exact ⟨fun d'' hd'' => Option.some.inj hd'' ▸ hmakes, hchain⟩

/-- The stack of a demand names the demands that lead to it. -/
theorem stack_of_chain (hd : d.session.Bracketed limit) (hhead : (path ++ [last]).head? = some d)
    (hchain : (path ++ [last]).IsChain (Makes x limit)) :
    last.session.Bracketed limit ∧
      last.session.stack.reverse = d.session.stack.reverse ++ path.map (·.node) := by
  induction path generalizing d with
  | nil =>
    obtain rfl : last = d := Option.some.inj hhead
    exact ⟨hd, by simp⟩
  | cons d' path ih =>
    obtain rfl : d' = d := Option.some.inj hhead
    obtain ⟨hmakes, hrest⟩ := isChain_cons.mp hchain
    cases hnext : (path ++ [last]).head? with
    | none => simp at hnext
    | some next =>
      obtain ⟨hbracketed, hstack⟩ := (hmakes next hnext).rest hd
      obtain ⟨hlast, heq⟩ := ih hbracketed hnext hrest
      refine ⟨hlast, ?_⟩
      rw [heq, hstack, reverse_cons, append_assoc]
      rfl

end Demand

/-- A node whose dependency on itself is refused is neither a property nor a parameter, nor does it fetch a property. -/
theorem Inquiry.ne_of_not_addsNothing {kind : NodeKind} (h : addsNothing kind = false) :
    (∀ name modifiers, kind ≠ .property name modifiers) ∧
      (∀ name variadic byRef promoted, kind ≠ .parameter name variadic byRef promoted) ∧
      (∀ name nullsafe, kind ≠ .propertyFetch name nullsafe) ∧ ∀ name, kind ≠ .staticPropertyFetch name := by
  refine ⟨?_, ?_, ?_, ?_⟩ <;> (intros; rintro rfl; cases h)

/-- **Error reports are faithful**: whatever was resolved before, a resolution that fails was led by a chain of demands,
each made by the strategy of the one before, to a demand whose stack is the nodes of this chain. The stack is full there
and the error names the limit, or the last node is on the stack already: then the error lists, in order, the nodes from
there on and the node again, and that node is neither a property nor a parameter nor the fetch of a property. -/
theorem Index.error_reports_faithful (x : Index) (limit : Nat) (before : List NodeId) (node : NodeId)
    {e : ResolveError} (h : x.answerAfter limit before node = .error e) :
    ∃ (path : List Demand) (last : Demand),
      (path ++ [last]).head? = some ⟨node, x.resolveAll limit before {}⟩ ∧
      (path ++ [last]).IsChain (Demand.Makes x limit) ∧
      last.session.stack.reverse = path.map (·.node) ∧
      ((path.length = limit ∧ e = .depthExceeded limit (x.forest.kind last.node).display) ∨
        ∃ (below segment : List Demand) (chain : List String),
          path = below ++ segment ∧ segment.head?.map (·.node) = some last.node ∧
          chain = (segment ++ [last]).map (fun d => (x.forest.kind d.node).display) ∧ e = .circular chain ∧
          2 ≤ chain.length ∧ chain.length ≤ limit + 1 ∧ chain.head? = chain.getLast? ∧
          (∀ name modifiers, x.forest.kind last.node ≠ .property name modifiers) ∧
          (∀ name variadic byRef promoted, x.forest.kind last.node ≠ .parameter name variadic byRef promoted) ∧
          (∀ name nullsafe, x.forest.kind last.node ≠ .propertyFetch name nullsafe) ∧
          ∀ name, x.forest.kind last.node ≠ .staticPropertyFetch name) := by
  have hidle := x.resolveAll_idle limit before Session.new_idle
  have hbracketed : Bracketed limit _ := (rests_nil_iff_idle.mpr hidle).bracketed
  obtain ⟨path, last, hhead, hchain, hrefused⟩ := Demand.exists_chain_of_error
    (d := ⟨node, x.resolveAll limit before {}⟩) limit hbracketed (by simp [hidle.stack_eq]) (Prod.ext h rfl)
  obtain ⟨hlast, hstack⟩ := Demand.stack_of_chain hbracketed hhead hchain
  rw [hidle.stack_eq, List.reverse_nil, List.nil_append] at hstack
  have hlength : path.length = last.session.stack.length := by
    have hlengths := congrArg List.length hstack
    rw [List.length_reverse, List.length_map] at hlengths
    exact hlengths.symm
  refine ⟨path, last, hhead, hchain, hstack, ?_⟩
  cases hrefused with
  | depthExceeded hfull => exact .inl ⟨hlength.trans hfull, rfl⟩
  | circular hresolving hkind =>
    right
    rw [hlast.resolving_eq] at hresolving
    obtain ⟨below, segment, hsplit, hcycle⟩ := exists_cycle_eq hresolving
    rw [hstack] at hsplit
    obtain ⟨lower, upper, rfl, rfl, hupper⟩ := List.map_eq_append_iff.mp hsplit
    obtain ⟨first, more, rfl, hfirst, rfl⟩ := List.map_eq_cons_iff.mp hupper
    have hmost := hlast.stack_length
    rw [← hlength, List.length_append, List.length_cons] at hmost
    refine ⟨lower, first :: more, _, rfl, congrArg some hfirst, rfl, ?_, ?_, ?_, ?_, ne_of_not_addsNothing hkind⟩
    · rw [hcycle]
      simp [hfirst]
    · simp
    · simp
      omega
    · rw [List.map_append, List.map_singleton, List.getLast?_concat]
      simp [hfirst]

/-- A function whose variable is given a constant that depends on itself. -/
def Index.circularConstants : Index :=
  .ofProgram ("<?php\nclass A \x7b const X = self::Y; const Y = self::X; \x7d\n" ++
    "function f() \x7b $a = A::X; return $a; \x7d\n")

theorem Index.error_reports_faithful_circularConstants : let x := circularConstants
    let chain := ["ClassConstant(X)", "ClassConstantFetch(Y)", "ClassConstant(Y)", "ClassConstantFetch(X)",
      "ClassConstant(X)"]
    x.forest.kind 15 = .function "f" ∧ x.answerAfter 512 [] 15 = .error (.circular chain) ∧
      ∃ below segment last, (below ++ segment ++ [last]).head? = some ⟨15, {}⟩ ∧
        (below ++ segment ++ [last]).IsChain (Demand.Makes x 512) ∧
        chain = (segment ++ [last]).map (fun d => (x.forest.kind d.node).display) := by
  have hfacts : circularConstants.forest.kind 15 = .function "f" ∧ circularConstants.failureAfter? 512 [] 15 =
      some (.circular ["ClassConstant(X)", "ClassConstantFetch(Y)", "ClassConstant(Y)", "ClassConstantFetch(X)",
        "ClassConstant(X)"]) := by
    decide +kernel
  intro x chain
  have hanswer : x.answerAfter 512 [] 15 = .error (.circular chain) := answerAfter_of_failureAfter? hfacts.2
  refine ⟨hfacts.1, hanswer, ?_⟩
  obtain ⟨path, last, hhead, hchain, -, ⟨-, herror⟩ | ⟨below, segment, _, rfl, -, hlists, herror, -⟩⟩ :=
    error_reports_faithful x 512 [] 15 hanswer
  · cases herror
  · cases herror
    exact ⟨below, segment, last, hhead, hchain, hlists⟩

end EventAtlas
