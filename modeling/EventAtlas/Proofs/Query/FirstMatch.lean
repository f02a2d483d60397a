import EventAtlas.Proofs.Facts.Selection

/-!
# The first match is the first of all matches

Two queries with the same conditions, one for the first match and one for all of them, go through the same items in the
same order, and until there is a match they ask for the same types in the same sessions. Searches for units and for
methods ask for nothing: there the statement is one about lists (`search_onlyFirst`). At the site of a call the types of
the receiver may be asked for, and that may fail; `callsAmong_cons` says what one site does to the session and to the
matches, and `callsAmong_onlyFirst` follows the two queries from site to site.
-/

namespace EventAtlas.Query

variable {x : Index} {limit : Nat} {q : Query} {s t : Session} {hits : List QueryMatch}

/-- The query for the first match that has the same conditions. -/
def onlyFirst (q : Query) : Query :=
  { q with first := true }

/-- Conditions are refused or accepted however many matches are asked for. -/
theorem ofPredicates_true (conditions : List (Predicate String)) :
    ofPredicates conditions true = (ofPredicates conditions false).map onlyFirst := by
  simp only [ofPredicates, bind, Except.bind, pure, Except.pure]
  cases Predicate.compileAll conditions with
  | error e => rfl
  | ok compiled =>
    dsimp only
    cases Predicate.targetFrom .units compiled <;> rfl

/-! ## Units and methods -/

section

variable (hfirst : q.first = false)
include hfirst

/-- A search that stops at the first match finds the first of those that a full search finds, if the visits to the items
do. -/
theorem search_onlyFirst {α : Type} {visit visitOnce : α → List QueryMatch}
    (hvisit : ∀ item, visitOnce item = (visit item).take 1) (items : List α) :
    q.onlyFirst.search visitOnce items = (q.search visit items).take 1 := by
  induction items with
  | nil => rfl
  | cons item rest ih =>
    rw [search_eq_flatMap hfirst] at ih ⊢
    rw [search, hvisit, List.flatMap_cons]
    cases visit item with
    | nil => exact ih
    | cons m more => rfl

theorem units_onlyFirst : q.onlyFirst.units x = (q.units x).take 1 := by
  apply search_onlyFirst hfirst
  intro u
  show (if q.unitPasses x.forest u then [_] else []) = _
  split <;> rfl

/-- The inner search ends with its first match, and the outer one with it. -/
theorem methods_onlyFirst : q.onlyFirst.methods x = (q.methods x).take 1 := by
  apply search_onlyFirst hfirst
  intro u
  show (if q.unitPasses x.forest u then _ else []) = _
  split
  · apply search_onlyFirst hfirst
    intro member
    show (q.methodMatch? x.forest u member).toList = _
    cases q.methodMatch? x.forest u member <;> rfl
  · rfl

/-! ## Calls -/

omit hfirst in
/-- What a query for calls does at one site, and how it goes on. -/
theorem callsAmong_cons (q : Query) (x : Index) (limit : Nat) (site : NodeId) (rest : List NodeId) (s : Session) :
    (q.callsAmong x limit (site :: rest)).run.run s =
      match (q.callMatch? x limit site).run.run s with
      | (.error e, t) => (.error e, t)
      | (.ok none, t) => (q.callsAmong x limit rest).run.run t
      | (.ok (some m), t) =>
        if q.first then (.ok [m], t)
        else match (q.callsAmong x limit rest).run.run t with
          | (.error e, u) => (.error e, u)
          | (.ok more, u) => (.ok (m :: more), u) := by
  rw [callsAmong, Session.Runs.run_bind]
  obtain ⟨r, t⟩ := (q.callMatch? x limit site).run.run s
  cases r with
  | error e => rfl
  | ok found =>
    cases found with
    | none => rfl
    | some m =>
      dsimp only
      split
      · rfl
      · rw [Session.Runs.run_bind]
        obtain ⟨r, u⟩ := (q.callsAmong x limit rest).run.run t
        cases r <;> rfl

/-- If the query for all calls ends well, the query for the first one ends well at the first match. -/
theorem callsAmong_onlyFirst (sites : List NodeId) (h : (q.callsAmong x limit sites).run.run s = (.ok hits, t)) :
    ∃ u, (q.onlyFirst.callsAmong x limit sites).run.run s = (.ok (hits.take 1), u) := by
  -- Up to the first match both queries are in the same session, so the session is generalized.
  induction sites generalizing s with
  | nil =>
    cases h
    exact ⟨t, rfl⟩
  | cons site rest ih =>
    have hsite : q.onlyFirst.callMatch? x limit site = q.callMatch? x limit site := rfl
    rw [callsAmong_cons] at h ⊢
    rw [hsite]
    rcases hmatch : (q.callMatch? x limit site).run.run s with ⟨r, u⟩
    rw [hmatch] at h
    cases r with
    | error e => cases h
    | ok found =>
      cases found with
      | none => exact ih h
      | some m =>
        simp only [hfirst, Bool.false_eq_true, if_false] at h
        rcases hrest : (q.callsAmong x limit rest).run.run u with ⟨r, w⟩
        rw [hrest] at h
        cases r with
        | error e => cases h
        | ok more =>
          cases h
          exact ⟨u, rfl⟩

theorem run_onlyFirst (h : (q.run x limit).run.run s = (.ok hits, t)) :
    ∃ u, (q.onlyFirst.run x limit).run.run s = (.ok (hits.take 1), u) := by
  have htarget : q.onlyFirst.target = q.target := rfl
  unfold run at h ⊢
  rw [htarget]
  cases hq : q.target with
  | units =>
    rw [hq] at h
    cases h
    exact ⟨s, by rw [units_onlyFirst hfirst]; rfl⟩
  | methods =>
    rw [hq] at h
    cases h
    exact ⟨s, by rw [methods_onlyFirst hfirst]; rfl⟩
  | callSites =>
    rw [hq] at h
    exact callsAmong_onlyFirst hfirst _ h
  | functionCalls =>
    rw [hq] at h
    exact callsAmong_onlyFirst hfirst _ h

end

/-- Where conditions make a query for all matches, they make one for the first match too. Whatever the index, the limit
of the stack and the session, if the first query gives matches from there, the second gives just the first of them, or
nothing if there are none. -/
theorem run_first_eq_head {conditions : List (Predicate String)} {all : Query}
    (hall : ofPredicates conditions false = .ok all) :
    ∃ first, ofPredicates conditions true = .ok first ∧ first.target = all.target ∧
      ∀ (x : Index) (limit : Nat) (s t : Session) (hits : List QueryMatch),
        (all.run x limit).run.run s = (.ok hits, t) →
          ∃ u, (first.run x limit).run.run s = (.ok hits.head?.toList, u) := by
  refine ⟨all.onlyFirst, ?_, rfl, ?_⟩
  · rw [ofPredicates_true, hall]
    rfl
  · intro x limit s t hits hrun
    rw [← List.take_one]
    exact run_onlyFirst (ofPredicates_eq_ok hall).1 hrun

/-- A bell that is rung twice. -/
def bells : Index :=
  .ofProgram "<?php\nclass Bell \x7b\x7d\n(new Bell)->ring();\n(new Bell)->ring();\n"

theorem run_first_eq_head_bells : ∃ all first hits t u, ofPredicates [.callSite "Bell" "ring"] false = .ok all ∧
    ofPredicates [.callSite "Bell" "ring"] true = .ok first ∧ (all.run bells 64).run.run {} = (.ok hits, t) ∧
    hits.length = 2 ∧ (first.run bells 64).run.run {} = (.ok hits.head?.toList, u) := by
  have hfacts : ((ofPredicates [.callSite "Bell" "ring"] false).toOption.bind fun all =>
      ((all.run bells 64).run.run {}).1.toOption.map List.length) = some 2 := by
    decide +kernel
  obtain ⟨all, hall, hlength⟩ := Option.bind_eq_some_iff.mp hfacts
  obtain ⟨hits, hhits, hlength⟩ := Option.map_eq_some_iff.mp hlength
  have hall := eq_ok_of_toOption hall
  have hrun : (all.run bells 64).run.run {} = (.ok hits, ((all.run bells 64).run.run {}).2) :=
    Prod.ext (eq_ok_of_toOption hhits) rfl
  obtain ⟨first, hfirst, -, hhead⟩ := run_first_eq_head hall
  obtain ⟨u, hu⟩ := hhead bells 64 {} _ hits hrun
  exact ⟨all, first, hits, _, u, hall, hfirst, hrun, hlength, hu⟩

end EventAtlas.Query
