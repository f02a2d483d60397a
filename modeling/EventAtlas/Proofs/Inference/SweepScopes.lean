import EventAtlas.Proofs.Hierarchy.Supertypes
import EventAtlas.Proofs.Inference.Collection
import EventAtlas.Proofs.Inference.Visits
import EventAtlas.Proofs.Link.TreeShape

/-!
# Sweeps keep to their scope

Where a variable is read is found twice: a read looks upward for the nearest node that has variables of its own, and a
sweep goes downward and passes over what is not its own. `visited_sweepingScope?` says that the two agree at each step
of a sweep, so all that the sweep of a scope has remembered is read in that scope (`scope_reads`).

In a run, a sweep is begun for the scope in which some node reads, and sweeps nest. So whenever a read is remembered,
the variables at hand are those of its own scope (`resolveWithin_keepsToScope`).
-/

namespace EventAtlas

open Forest Strategy

namespace Forest

variable {f : Forest} {id c a : NodeId} {p : NodeKind → Bool}

theorem Linked.enclosing?_child (h : f.Linked) (hid : id ∈ f.reached) (hc : c ∈ f.children id) :
    f.enclosing? c p = if p (f.kind id) then some id else f.enclosing? id p := by
  rw [enclosing?, h.ancestors_child hid hc, Linked.lineage_eq_cons, List.find?_cons, enclosing?]
  cases p (f.kind id) <;> rfl

/-- What is an assignment to, if it has variables of its own. -/
def assignsToScope (f : Forest) (id : NodeId) : Bool :=
  match f.kind id, f.children id with
  | .assign _, target :: _ :: _ => ownsVariables (f.kind target)
  | _, _ => false

/-- No file is inside of another node, and nothing is assigned to a node that has variables of its own. -/
@[mk_iff] structure PlainScopes (f : Forest) : Prop where
  file_outermost : ∀ id ∈ f.reached, ∀ c ∈ f.children id, f.kind c ≠ .file
  no_scope_assigned : ∀ id ∈ f.reached, f.assignsToScope id = false

instance : Decidable f.PlainScopes :=
  decidable_of_iff _ f.plainScopes_iff.symm

/-- Every node that has a parent is below a file. -/
def ParentsReached (f : Forest) : Prop :=
  ∀ id up, f.parent id = some up → id ∈ f.reached

/-- The scope around a node has variables of its own and is below a file. -/
theorem Linked.variableScope?_reached (h : f.Linked) (hparents : f.ParentsReached) (ha : f.variableScope? id = some a) :
    a ∈ f.reached ∧ ownsVariables (f.kind a) = true := by
  have hmem := List.mem_of_find?_eq_some ha
  have howns : ownsVariables (f.kind a) = true := List.find?_some (p := fun a => ownsVariables (f.kind a)) ha
  refine ⟨?_, howns⟩
  cases hp : f.parent id with
  | none =>
    rw [ancestors, lineage, climb, hp] at hmem
    cases hmem
  | some up => exact h.lineage_subset (hparents id up hp) (List.mem_of_mem_drop hmem)

end Forest

namespace Sweeping

variable {f : Forest} {x : Index} {id c scope : NodeId}

/-! ## The scope of what is visited -/

/-- The scope whose sweep comes to a node: for a variable the one that it is read in. -/
def sweepingScope? (f : Forest) (id : NodeId) : Option NodeId :=
  if isVariable (f.kind id) then readingScope? f id else f.variableScope? id

section

variable (hlink : f.Linked)
include hlink

theorem readingScope?_child (hid : id ∈ f.reached) (hc : c ∈ f.children id) :
    readingScope? f c = match f.kind id with
      | .closure _ => f.variableScope? id
      | _ => f.variableScope? c := by
  rewrite [readingScope?, hlink.parent_child id hid c hc]
  rfl

/-- Below a node without variables of its own, everything is in the scope of the node. -/
theorem sweepingScope?_child (hid : id ∈ f.reached) (hc : c ∈ f.children id)
    (howns : ownsVariables (f.kind id) = false) : sweepingScope? f c = f.variableScope? id := by
  have hscope : f.variableScope? c = f.variableScope? id := by
    rw [variableScope?, hlink.enclosing?_child hid hc, howns]
    rfl
  have hreading : readingScope? f c = f.variableScope? c := by
    rw [readingScope?_child hlink hid hc]
    cases hk : f.kind id with
    | closure isStatic =>
      rw [hk] at howns
      cases howns
    | _ => rfl
  rw [sweepingScope?, hreading, hscope, ite_self]

/-- The children of a scope are in the scope, apart from variables that a closure takes along. -/
theorem sweepingScope?_of_owns (hid : id ∈ f.reached) (hc : c ∈ f.children id)
    (howns : ownsVariables (f.kind id) = true) (h : isVariable (f.kind c) = true → f.kind id = .file) :
    sweepingScope? f c = some id := by
  have hscope : f.variableScope? c = some id := by
    rw [variableScope?, hlink.enclosing?_child hid hc, if_pos howns]
  rw [sweepingScope?]
  split
  · next hvar => rw [readingScope?_child hlink hid hc, h hvar, hscope]
  · exact hscope

/-- A file is in no scope. -/
theorem PlainScopes.variableScope?_file (hplain : f.PlainScopes) (hid : id ∈ f.reached)
    (hk : f.kind id = .file) : f.variableScope? id = none := by
  by_cases hroot : id ∈ f.roots
  · rw [variableScope?, enclosing?, hlink.ancestors_root hroot]
    rfl
  · obtain ⟨up, hup, hchild⟩ := hlink.exists_parent hid hroot
    exact absurd hk (hplain.file_outermost up hup id hchild)

/-- A visit stays in the scope. -/
theorem visited_sweepingScope? (hplain : f.PlainScopes) (hid : id ∈ f.reached)
    (hscope : sweepingScope? f id = some scope) (hc : c ∈ visited f id) :
    c ∈ f.reached ∧ sweepingScope? f c = some scope := by
  have hnovar : isVariable (f.kind id) = false := by
    cases hk : f.kind id with
    | var name => simp [visited, hk] at hc
    | _ => rfl
  rw [sweepingScope?, hnovar, if_neg Bool.false_ne_true] at hscope
  cases howns : ownsVariables (f.kind id) with
  | true =>
    cases hk : f.kind id with
    | method | function => simp [visited, hk] at hc
    | file =>
      rw [PlainScopes.variableScope?_file hlink hplain hid hk] at hscope
      cases hscope
    | closure isStatic =>
      -- Only what the closure takes along is visited, and that is read where the closure is made.
      rw [visited, hk] at hc
      obtain ⟨hchild, hvar⟩ := List.mem_filter.mp hc
      refine ⟨hlink.children_reached hid hchild, ?_⟩
      rw [sweepingScope?, if_pos hvar, readingScope?_child hlink hid hchild, hk]
      exact hscope
    | _ =>
      rw [hk] at howns
      cases howns
  | false =>
    obtain hchild | ⟨byRef, target, value, rest, hk, hchildren, hinner⟩ := mem_visited hc
    · exact ⟨hlink.children_reached hid hchild, (sweepingScope?_child hlink hid hchild howns).trans hscope⟩
    · have htarget : target ∈ f.children id := by simp [hchildren]
      have hinner := insideTarget_subset f target hinner
      have hreached := hlink.children_reached hid htarget
      have hplace := hplain.no_scope_assigned id hid
      rw [assignsToScope, hk, hchildren] at hplace
      have htargetScope : f.variableScope? target = f.variableScope? id := by
        rw [variableScope?, hlink.enclosing?_child hid htarget, howns]
        rfl
      refine ⟨hlink.children_reached hreached hinner, ?_⟩
      rw [sweepingScope?_child hlink hreached hinner hplace, htargetScope, hscope]

/-- What is visited first is in the scope. -/
theorem firstSteps_sweepingScope? (hscope : scope ∈ f.reached)
    (howns : ownsVariables (f.kind scope) = true) (hc : c ∈ visits (firstSteps f scope)) :
    c ∈ f.reached ∧ sweepingScope? f c = some scope := by
  have hchild := mem_visits_firstSteps hc
  refine ⟨hlink.children_reached hscope hchild, sweepingScope?_of_owns hlink hscope hchild howns fun hvar => ?_⟩
  rw [visits_firstSteps] at hc
  split at hc
  · assumption
  · -- The body of a function is a block.
    have hbody := Option.mem_toList.mp hc
    unfold body? at hbody
    split at hbody
    · next hk =>
      rw [hk] at howns
      cases howns
    · have hblock := List.find?_some hbody
      rw [beq_iff_eq.mp hblock] at hvar
      cases hvar

end

/-- All that the sweep of a scope has remembered is read in the scope. -/
theorem scope_reads (hlink : x.forest.Linked) (hplain : x.forest.PlainScopes) (hscope : scope ∈ x.forest.reached)
    (howns : ownsVariables (x.forest.kind scope) = true) :
    (Sweeping.scope x scope).Gives (fun q => ∀ node name, q = .read node name →
      x.forest.kind node = .var name ∧ readingScope? x.forest node = some scope) (fun _ _ => True) fun _ => True := by
  refine (steps_read (P := fun id => id ∈ x.forest.reached ∧ sweepingScope? x.forest id = some scope)
    (fun id h c hc => visited_sweepingScope? hlink hplain h.1 h.2 hc) _
    fun id hid => firstSteps_sweepingScope? hlink hscope howns hid).imp (fun q hq node name heq => ?_) fun _ h => h
  obtain ⟨⟨-, hreads⟩, hk, -⟩ := hq node name heq
  rw [sweepingScope?, hk, if_pos (show isVariable (.var name) = true from rfl)] at hreads
  exact ⟨hk, hreads⟩

end Sweeping

/-! ## Runs -/

/-- A read is remembered only with the variables of the scope that it is read in. -/
def Act.KeepsToScope (f : Forest) (a : Act) (s : Session) : Prop :=
  ∀ node name, a = .rememberRead node name → ∃ v, s.frame? = some v ∧ readingScope? f node = some v.scope

theorem Act.keepsToScope_of_ne {f : Forest} {a : Act} {s : Session} (h : ∀ node name, a ≠ .rememberRead node name) :
    a.KeepsToScope f s :=
  fun node name heq => absurd heq (h node name)

/-- These scopes are being swept, the innermost first, and the session has collected what the forest says. -/
structure Session.AmidSweeps (f : Forest) (scopes : List NodeId) (s : Session) : Prop where
  scopes_eq : s.sweeps.map (·.frame.scope) = scopes
  gathered : s.Gathered f

theorem Session.AmidSweeps.perform {f : Forest} {scopes : List NodeId} {s : Session} {a : Act}
    (h : s.AmidSweeps f scopes) (ha : a.CollectsFrom f) (hsweeps : (a.perform s).2.sweeps = s.sweeps) :
    (a.perform s).2.AmidSweeps f scopes :=
  ⟨hsweeps ▸ h.scopes_eq, h.gathered.perform ha⟩

/-- What leaves alone what is under way leaves alone the sweeps. -/
theorem Session.sweeps_of_underway {s s' : Session} (h : s'.underway = s.underway) : s'.sweeps = s.sweeps :=
  congrArg (·.2.2.1) h

theorem Session.sweeps_readAhead (s : Session) (scope : NodeId) (name : String) :
    (s.readAhead scope name).2.sweeps = s.sweeps := by
  unfold readAhead
  split <;> rfl

/-- What the allowed answers keep is kept by a dialogue that asks what is allowed. -/
theorem Inquiry.Keeps.interpret_gives {Q α : Type} [Questions Q] {pre : Act → Session → Prop} {inv : Session → Prop}
    {answer : (q : Q) → Inquiry (Questions.Answer q)} {allowed : Q → Prop} {post : α → Prop}
    (h : ∀ q, allowed q → Keeps pre inv (answer q)) {d : Dialogue Q α}
    (hd : d.Gives allowed (fun _ _ => True) post) : Keeps pre inv (d.interpret answer) := by
  induction d with
  | done a => exact keeps_pure a
  | ask q next ih => exact (h q hd.1).bind fun a => ih a (hd.2 a trivial)

/-- Some node reads in the scope. -/
def Forest.IsReadingScope (f : Forest) (scope : NodeId) : Prop :=
  ∃ node, readingScope? f node = some scope

theorem Forest.IsReadingScope.reached {f : Forest} {scope : NodeId} (h : f.IsReadingScope scope) (hlink : f.Linked)
    (hparents : f.ParentsReached) : scope ∈ f.reached ∧ ownsVariables (f.kind scope) = true := by
  obtain ⟨node, h⟩ := h
  unfold readingScope? at h
  split at h
  · split at h <;> exact hlink.variableScope?_reached hparents h
  · exact hlink.variableScope?_reached hparents h

namespace Inquiry

open Session

variable {α : Type} {x : Index} {scopes : List NodeId} {types : NodeId → Inquiry TypeSet}

/-- In the course of the inquiry reads are remembered in their own scopes, and the sweeps under way are kept. -/
abbrev KeepsToScopes (f : Forest) (scopes : List NodeId) (i : Inquiry α) : Prop :=
  Keeps (Act.KeepsToScope f) (AmidSweeps f scopes) i

/-- All that the sweep of a scope in which nodes read has remembered is read in the scope. -/
def ReadsInScopes (x : Index) : Prop :=
  ∀ scope, x.forest.IsReadingScope scope → (Sweeping.scope x scope).Gives
    (fun q => ∀ node name, q = .read node name → x.forest.kind node = .var name ∧
      readingScope? x.forest node = some scope) (fun _ _ => True) fun _ => True

theorem keepsToScope_act {a : Act} (hread : ∀ node name, a ≠ .rememberRead node name) (ha : a.CollectsFrom x.forest)
    (hsweeps : ∀ s : Session, (a.perform s).2.sweeps = s.sweeps) : KeepsToScopes x.forest scopes (act a) :=
  keeps_act (fun _ _ => Act.keepsToScope_of_ne hread) fun s hs => hs.perform ha (hsweeps s)

section Answers

variable (htypes : ∀ scopes node, KeepsToScopes x.forest scopes (types node))

include htypes

theorem answerSweep_keepsToScope {scope : NodeId} {q : SweepQuestion}
    (hq : ∀ node name, q = .read node name → readingScope? x.forest node = some scope) :
    KeepsToScopes x.forest (scope :: scopes) (answerSweep types q) := by
  cases q with
  | types node => exact htypes _ node
  | isResolving node => exact keepsToScope_act nofun trivial fun _ => rfl
  | current => exact keepsToScope_act nofun trivial fun _ => rfl
  | change g =>
    refine keeps_act (fun _ _ => Act.keepsToScope_of_ne nofun) fun s hs => ⟨?_, hs.gathered.perform trivial⟩
    obtain ⟨w, rest, hsweeps, hw, hrest⟩ := List.map_eq_cons_iff.mp hs.scopes_eq
    change (Sweeps.modifyCurrent g s.sweeps).map _ = _
    rw [hsweeps]
    exact congr (congrArg List.cons hw) hrest
  | read node name =>
    refine keeps_act (fun s hs node' name' h => ?_) fun s hs =>
      hs.perform trivial (sweeps_of_underway (underway_rememberRead s node name))
    cases h
    obtain ⟨w, rest, hsweeps, hw, -⟩ := List.map_eq_cons_iff.mp hs.scopes_eq
    refine ⟨w.frame, ?_, hw.symm ▸ hq node name rfl⟩
    rw [frame?, hsweeps]
    rfl

variable (hreads : ReadsInScopes x)

include hreads

theorem sweep_keepsToScope {scope : NodeId} (hscope : x.forest.IsReadingScope scope) :
    KeepsToScopes x.forest scopes (sweep x types scope) := by
  intro s hs
  refine sweep_watched (Act.keepsToScope_of_ne nofun) (fun hnot => ?_) fun hbegun => ?_
  · rwa [beginSweep_of_not hnot]
  · have hbegun : (s.beginSweep scope).2.AmidSweeps x.forest (scope :: scopes) := by
      refine ⟨?_, hs.gathered.perform (a := .beginSweep scope) trivial⟩
      unfold beginSweep at hbegun ⊢
      split
      · next hnot =>
        rw [if_pos hnot] at hbegun
        cases hbegun
      · exact congrArg (scope :: ·) hs.scopes_eq
    refine (Keeps.interpret_gives (fun q hq => answerSweep_keepsToScope htypes fun node name h => (hq node name h).2)
      (hreads scope hscope) _ hbegun).mono fun r s _ hs => ⟨Act.keepsToScope_of_ne nofun, ?_⟩
    refine ⟨?_, hs.gathered.perform (a := .endSweep scope r.isOk) trivial⟩
    change (s.sweeps.drop 1).map _ = scopes
    rw [List.map_drop, hs.scopes_eq]
    rfl

theorem readVariable_keepsToScope {scope : NodeId} (hscope : x.forest.IsReadingScope scope) (node : NodeId)
    (name : String) : KeepsToScopes x.forest scopes (readVariable x types node scope name) :=
  .readVariable (keepsToScope_act nofun trivial fun s => s.sweeps_readAhead scope name)
    (sweep_keepsToScope htypes hreads hscope) (keepsToScope_act nofun trivial fun _ => rfl)

/-- A strategy that asks as it should has only scopes swept in which nodes read. -/
theorem strategy_keepsToScope {node : NodeId} {absent collected : List NodeId} {d : Strategy α}
    (hd : d.Asks x.forest node absent collected) :
    KeepsToScopes x.forest scopes (d.interpret (answer x types)) := by
  induction d generalizing absent collected with
  | done a => exact keeps_pure a
  | ask q next ih =>
    cases q with
    | types n => exact (htypes scopes n).bind fun t => ih t (hd.2 t)
    | isResolving n =>
      refine (keepsToScope_act (a := .isResolving n) nofun trivial fun _ => rfl).bind fun busy => ?_
      cases busy with
      | true => exact ih true hd.1
      | false => exact ih false hd.2
    | read n scope name =>
      obtain ⟨⟨-, hscope⟩, hnext⟩ := hd
      exact (readVariable_keepsToScope htypes hreads ⟨node, hscope⟩ n name).bind fun t => ih t (hnext t)
    | collect c =>
      refine (keepsToScope_act (a := .collect x.forest c) nofun rfl fun s => ?_).bind fun _ => ih () hd
      exact sweeps_of_underway (underway_collect x.forest s c)
    | writesTo decl =>
      intro s hs
      exact ⟨Act.keepsToScope_of_ne nofun, ih _ (hd.2 _ (hs.gathered.guarded.writesTo decl)) s hs⟩
    | looseWrites owner name =>
      intro s hs
      exact ⟨Act.keepsToScope_of_ne nofun, ih _ (hd.2 _ (hs.gathered.guarded.looseWrites owner name)) s hs⟩

end Answers

theorem remembered_keepsToScope {node : NodeId} {i : Inquiry TypeSet}
    (h : KeepsToScopes x.forest scopes i) : KeepsToScopes x.forest scopes (remembered x.forest node i) :=
  h.remembered fun _ _ =>
    ⟨Act.keepsToScope_of_ne nofun, Act.keepsToScope_of_ne nofun, Act.keepsToScope_of_ne nofun⟩

/-- Whenever an inquiry has a read remembered, the variables at hand are those of its own scope. -/
theorem resolveWithin_keepsToScope (hreads : ReadsInScopes x) (limit room : Nat) (scopes : List NodeId)
    (node : NodeId) : KeepsToScopes x.forest scopes (resolveWithin x limit room node) := by
  induction room generalizing scopes node with
  | zero => exact remembered_keepsToScope fun _ hs => hs
  | succ room ih =>
    refine remembered_keepsToScope (.framed (keepsToScope_act nofun trivial fun _ => rfl)
      (strategy_keepsToScope ih hreads (Strategy.dispatch_asks x node)) fun types => ?_)
    refine keepsToScope_act nofun trivial fun s => ?_
    change (s.leave node types).sweeps = s.sweeps
    rw [leave_eq]
    rfl

end Inquiry

namespace Index

open Inquiry Session

/-- **Sweeps keep to their scope**: in a linked forest with plain scopes, all that the sweep of a scope has remembered
is a variable that is read in the scope, and whenever a read is remembered in the course of a resolution, whatever was
resolved before, the variables at hand are those of the scope that it is read in. -/
theorem sweeps_keep_to_their_scope {x : Index} (hlink : x.forest.Linked) (hparents : x.forest.ParentsReached)
    (hplain : x.forest.PlainScopes) :
    (∀ scope ∈ x.forest.reached, ownsVariables (x.forest.kind scope) = true →
      (Sweeping.scope x scope).Gives (fun q => ∀ node name, q = .read node name →
        x.forest.kind node = .var name ∧ readingScope? x.forest node = some scope) (fun _ _ => True) fun _ => True) ∧
    ∀ limit before node, ∀ e ∈ (resolveWithin x limit limit node).run.course (x.resolveAll limit before {}),
      e.1.KeepsToScope x.forest e.2 := by
  have hreads := fun scope (hscope : scope ∈ x.forest.reached) howns => Sweeping.scope_reads hlink hplain hscope howns
  refine ⟨hreads, fun limit before node => ?_⟩
  have hkeeps := resolveWithin_keepsToScope (fun scope hscope =>
    hreads scope (hscope.reached hlink hparents).1 (hscope.reached hlink hparents).2) limit limit []
  have hbefore : (x.resolveAll limit before {}).AmidSweeps x.forest [] :=
    resolveAll_invariant (AmidSweeps x.forest []) (fun s node hs => (hkeeps node).perform hs) before
      ⟨rfl, Gathered.new x.forest⟩
  exact ((Dialogue.meets_iff _ _).mp (hkeeps node _ hbefore)).1

/-- A variable that a closure takes along, shadowed by an arrow function inside of it, and a function with a variable of
the same name. -/
def nestedScopes : List (String × String) :=
  [("a.php", "<?php\n$a = 1;\n$f = function ($p) use ($a) \x7b $g = fn($a) => $a . $p; return $a; \x7d;\n" ++
    "function h($a) \x7b return $a; \x7d\n$a;\n")]

theorem sweeps_keep_to_their_scope_nestedScopes : let x := ofPrograms nestedScopes
    x.forest.PlainScopes ∧ readingScope? x.forest 6 = some 28 ∧ readingScope? x.forest 15 = some 18 ∧
      x.namesAfter? 512 [] 15 = some ["int"] ∧
      ∀ e ∈ (resolveWithin x 512 512 15).run.course (x.resolveAll 512 [] {}), e.1.KeepsToScope x.forest e.2 := by
  have hfacts : (ofPrograms nestedScopes).forest.PlainScopes ∧
      readingScope? (ofPrograms nestedScopes).forest 6 = some 28 ∧
      readingScope? (ofPrograms nestedScopes).forest 15 = some 18 ∧
      (ofPrograms nestedScopes).namesAfter? 512 [] 15 = some ["int"] := by decide +kernel
  obtain ⟨hplain, houter, hinner, hnames⟩ := hfacts
  have hbuilt := ofForests_built (ofForests_ofPrograms nestedScopes)
  have hparents : (ofPrograms nestedScopes).forest.ParentsReached := fun id up =>
    hbuilt.reached_of_parent (joined_unlinked unlinked_of_mem_forestsOf)
  exact ⟨hplain, houter, hinner, hnames, (sweeps_keep_to_their_scope hbuilt.linked hparents hplain).2 512 [] 15⟩

/-- A file inside of a file: `$x = 1;`, a file that reads `$x`, and `$y`. -/
def innerFile : Index where
  forest :=
    { nodes := #[{ kind := .var "x", parent := some 2 }, { kind := .literal .int, parent := some 2 },
        { kind := .assign false, children := [0, 1], parent := some 6 }, { kind := .var "x", parent := some 4 },
        { kind := .file, children := [3], parent := some 6 }, { kind := .var "y", parent := some 6 },
        { kind := .file, children := [2, 4, 5] }]
      files := [{ path := "a.php", contentHash := "00", root := 6 }] }

/-- A function as the target of an assignment: `$x = 1;`, an assignment to a function that reads `$x`, and `$y`. -/
def assignedFunction : Index where
  forest :=
    { nodes := #[{ kind := .var "x", parent := some 2 }, { kind := .literal .int, parent := some 2 },
        { kind := .assign false, children := [0, 1], parent := some 9 }, { kind := .var "x", parent := some 4 },
        { kind := .block, children := [3], parent := some 5 },
        { kind := .function "f", children := [4], parent := some 7 }, { kind := .literal .int, parent := some 7 },
        { kind := .assign false, children := [5, 6], parent := some 9 }, { kind := .var "y", parent := some 9 },
        { kind := .file, children := [2, 7, 8] }]
      files := [{ path := "a.php", contentHash := "00", root := 9 }] }

/-- Without plain scopes a sweep has reads of an inner scope remembered: once `$y` was resolved, `$x` is what it is in
the outer scope. -/
theorem sweep_crosses_scopes :
    (readingScope? innerFile.forest 3 = some 4 ∧ innerFile.namesAfter? 512 [] 3 = some ["unknown<Variable>"] ∧
      innerFile.namesAfter? 512 [5] 3 = some ["int"]) ∧
    readingScope? assignedFunction.forest 3 = some 5 ∧
      assignedFunction.namesAfter? 512 [] 3 = some ["unknown<Variable>"] ∧
      assignedFunction.namesAfter? 512 [8] 3 = some ["int"] := by
  decide +kernel

end Index

end EventAtlas
