import EventAtlas.Forest.Walk
import EventAtlas.Proofs.Link.TreeShape
import Mathlib.Algebra.GroupWithZero.Nat

/-!
# A walk is the recursive traversal

`Traverses` says by recursion what a visitor is asked and told: a node is visited, what is below it is traversed if the
visitor goes on, and it is left; after a stop there is no call. No bound and no list of frames is in it.

A walk has both. Each frame that it works off is one call, so a traversal is a stretch of a walk as long as its list of
calls, whatever frames follow (`Traverses.run_eq`), and below a node of a tree the bound is not met
(`Traverses.length_le`). The calls of a walk are seen by a visitor that writes them down (`Visitor.recording`): it is
led the same way (`Traverses.recording`). What was visited is what `descendants` lists (`Traverses.visited_eq`).
-/

namespace EventAtlas

open List

variable {σ : Type}

namespace Walk

/-- A call of the visitor, with the state in which it was made. -/
inductive Call (σ : Type) where
  | visit (id : NodeId) (state : σ)
  | leave (id : NodeId) (state : σ)
deriving Repr, DecidableEq

/-- The nodes that were visited, in order. -/
def visited (calls : List (Call σ)) : List NodeId :=
  calls.filterMap fun
    | .visit id _ => some id
    | .leave .. => none

end Walk

open Walk

/-- The visitor that decides the same and writes down its calls. -/
def Visitor.recording (v : Visitor σ) : Visitor (σ × List (Call σ)) where
  visit := fun id (s, log) => ((v.visit id s).1, (v.visit id s).2, log ++ [.visit id s])
  leave := fun id (s, log) => (v.leave id s, log ++ [.leave id s])

namespace Forest

/-- The calls that a walk makes, in order. -/
def walkCalls (f : Forest) (v : Visitor σ) (root : NodeId) (s : σ) : List (Call σ) :=
  (f.walk v.recording root (s, [])).2.2

/-- The recursive traversal of nodes that stand side by side, with the calls that it makes. The answer says whether it
was completed, and in which state it leaves the visitor. -/
inductive Traverses (f : Forest) (v : Visitor σ) : List NodeId → σ → List (Call σ) → Bool × σ → Prop
  | done {s} : Traverses f v [] s [] (true, s)
  | stop {id rest s t} : v.visit id s = (.stop, t) → Traverses f v (id :: rest) s [.visit id s] (false, t)
  | skip {id rest s t calls r} : v.visit id s = (.skipChildren, t) → Traverses f v rest (v.leave id t) calls r →
    Traverses f v (id :: rest) s (.visit id s :: .leave id t :: calls) r
  | stopBelow {id rest s t below u} : v.visit id s = (.goOn, t) → Traverses f v (f.children id) t below (false, u) →
    Traverses f v (id :: rest) s (.visit id s :: below) (false, u)
  | goOn {id rest s t below u calls r} : v.visit id s = (.goOn, t) →
    Traverses f v (f.children id) t below (true, u) → Traverses f v rest (v.leave id u) calls r →
    Traverses f v (id :: rest) s (.visit id s :: below ++ .leave id u :: calls) r

end Forest

/-! ## Frames -/

variable {f : Forest} {v : Visitor σ} {id root : NodeId} {ids : List NodeId} {n : Nat} {s t : σ} {calls : List (Call σ)}
  {r : Bool × σ}

namespace Walk

variable {rest : List Frame}

@[simp] theorem visited_visit : visited (.visit id s :: calls) = id :: visited calls := rfl

@[simp] theorem visited_leave : visited (.leave id s :: calls) = visited calls := rfl

@[simp] theorem visited_append {after : List (Call σ)} : visited (calls ++ after) = visited calls ++ visited after :=
  filterMap_append

theorem run_nil (n : Nat) (s : σ) : run f v n [] s = (true, s) := by
  cases n <;> rfl

theorem run_stop (h : v.visit id s = (.stop, t)) : run f v (n + 1) (.enter id :: rest) s = (false, t) := by
  rw [run, h]

theorem run_skip (h : v.visit id s = (.skipChildren, t)) :
    run f v (n + 1) (.enter id :: rest) s = run f v n (.leave id :: rest) t := by
  rw [run, h]

theorem run_goOn (h : v.visit id s = (.goOn, t)) :
    run f v (n + 1) (.enter id :: rest) s = run f v n ((f.children id).map .enter ++ .leave id :: rest) t := by
  rw [run, h]

theorem recording_visit {d : Decision} (h : v.visit id s = (d, t)) (log : List (Call σ)) :
    v.recording.visit id (s, log) = (d, t, log ++ [.visit id s]) := by
  simp only [Visitor.recording, h]

/-- What is done with the frames that are left after something was completed or stopped. -/
def resume (f : Forest) (v : Visitor σ) (n : Nat) (rest : List Frame) : Bool × σ → Bool × σ
  | (true, s) => run f v n rest s
  | (false, s) => (false, s)

end Walk

namespace Forest

/-- The walk below a node spends a level on the node. -/
theorem Fits.exists_below (h : f.Fits n id) : ∃ m, (∀ c ∈ f.children id, f.Fits m c) ∧
    weight f n id = 1 + ((f.children id).map (weight f m)).sum ∧
    f.descend n id = id :: (f.children id).flatMap (f.descend m) := by
  cases n with
  | zero => exact h.elim
  | succ m => exact ⟨m, h, rfl, rfl⟩

/-! ## Traversals as stretches of a walk -/

namespace Traverses

section

variable (h : f.Traverses v ids s calls r)
include h

/-- Entering nodes is traversing them, frame by frame and call by call. -/
theorem run_eq (n : Nat) (work : List Frame) :
    run f v (n + calls.length) (ids.map .enter ++ work) s = resume f v n work r := by
  induction h generalizing n work with
  | done => rfl
  | stop hvisit => exact run_stop hvisit
  | skip hvisit _ ih => exact (run_skip hvisit).trans (ih n work)
  | stopBelow hvisit _ ih => exact (run_goOn hvisit).trans (ih n _)
  | @goOn id rest s t below u calls r hvisit _ _ ihbelow ihrest =>
    -- The bound is spent on the visit, on what is below, on the leave and on what stands beside, in this order.
    have hlength : n + (.visit id s :: below ++ .leave id u :: calls).length =
        n + calls.length + 1 + below.length + 1 := by
      simp only [length_cons, length_append, cons_append]
      omega
    rw [hlength]
    calc
      _ = run f v (n + calls.length + 1 + below.length)
          ((f.children id).map .enter ++ .leave id :: (rest.map .enter ++ work)) t := run_goOn hvisit
      _ = run f v (n + calls.length + 1) (.leave id :: (rest.map .enter ++ work)) u := ihbelow ..
      _ = _ := ihrest n work

/-- No more calls are made than two for each node below. -/
theorem length_le (hfits : ∀ id ∈ ids, f.Fits n id) : calls.length ≤ 2 * (ids.map (weight f n)).sum := by
  induction h generalizing n with
  | done => exact Nat.zero_le _
  | stop _ =>
    obtain ⟨hid, -⟩ := forall_mem_cons.mp hfits
    obtain ⟨m, -, hweight, -⟩ := hid.exists_below
    simp only [map_cons, sum_cons, hweight, length_singleton]
    omega
  | skip _ _ ih =>
    obtain ⟨hid, hrest⟩ := forall_mem_cons.mp hfits
    obtain ⟨m, -, hweight, -⟩ := hid.exists_below
    have := ih hrest
    simp only [map_cons, sum_cons, hweight, length_cons]
    omega
  | stopBelow _ _ ih =>
    obtain ⟨hid, -⟩ := forall_mem_cons.mp hfits
    obtain ⟨m, hbelow, hweight, -⟩ := hid.exists_below
    have := ih hbelow
    simp only [map_cons, sum_cons, hweight, length_cons]
    omega
  | goOn _ _ _ ihbelow ihrest =>
    obtain ⟨hid, hrest⟩ := forall_mem_cons.mp hfits
    obtain ⟨m, hbelow, hweight, -⟩ := hid.exists_below
    have := ihbelow hbelow
    have := ihrest hrest
    simp only [map_cons, sum_cons, hweight, length_cons, length_append, cons_append]
    omega

/-- A visitor that writes down its calls is led the same way. -/
theorem recording (log : List (Call σ)) :
    ∃ logged, f.Traverses v.recording ids (s, log) logged (r.1, r.2, log ++ calls) := by
  induction h generalizing log with
  | done =>
    rw [append_nil]
    exact ⟨_, .done⟩
  | stop hvisit => exact ⟨_, .stop (recording_visit hvisit log)⟩
  | skip hvisit _ ih =>
    rw [append_cons, append_cons]
    obtain ⟨_, hrest⟩ := ih _
    exact ⟨_, .skip (recording_visit hvisit log) hrest⟩
  | stopBelow hvisit _ ih =>
    rw [append_cons]
    obtain ⟨_, hbelow⟩ := ih _
    exact ⟨_, .stopBelow (recording_visit hvisit log) hbelow⟩
  | @goOn _ _ _ _ _ _ calls _ hvisit _ _ ihbelow ihrest =>
    rw [cons_append, append_cons log, ← append_assoc, append_cons _ _ calls]
    obtain ⟨_, hbelow⟩ := ihbelow _
    obtain ⟨_, hrest⟩ := ihrest _
    exact ⟨_, .goOn (recording_visit hvisit log) hbelow hrest⟩

/-- A traversal is broken off exactly by a visit that says so. -/
theorem stopped_iff : r.1 = false ↔ ∃ id t, .visit id t ∈ calls ∧ (v.visit id t).1 = .stop := by
  induction h with
  | done => simp
  | stop hvisit => simp [hvisit]
  | skip hvisit _ ih => simp [or_and_right, exists_or, and_assoc, hvisit, ih]
  | stopBelow hvisit _ ih => simp [or_and_right, exists_or, and_assoc, hvisit, ← ih]
  | goOn hvisit _ _ ihbelow ihrest => simp [or_and_right, exists_or, and_assoc, hvisit, ihrest, ← ihbelow]

/-- If every visit goes on, everything below is visited in source order. -/
theorem visited_eq (hfits : ∀ id ∈ ids, f.Fits n id)
    (hon : ∀ id t, .visit id t ∈ calls → (v.visit id t).1 = .goOn) : visited calls = ids.flatMap (f.descend n) := by
  induction h generalizing n with
  | done => rfl
  | stop hvisit => simp [hvisit] at hon
  | skip hvisit _ _ => simp [hvisit, or_imp, forall_and] at hon
  | stopBelow _ hstop _ =>
    obtain ⟨id, t, hmem, hid⟩ := hstop.stopped_iff.mp rfl
    cases hid.symm.trans (hon id t (mem_cons_of_mem _ hmem))
  | goOn _ _ _ ihbelow ihrest =>
    obtain ⟨hid, hrest⟩ := forall_mem_cons.mp hfits
    obtain ⟨m, hbelow, -, hdescend⟩ := hid.exists_below
    have hvisited := ihbelow hbelow fun id t hmem => hon id t (by simp [hmem])
    have hvisited' := ihrest hrest fun id t hmem => hon id t (by simp [hmem])
    rw [visited_append, visited_visit, visited_leave, hvisited, hvisited', flatMap_cons, hdescend]

end

/-- Where its bound is not met, a walk ends as the traversal does. -/
theorem walk_eq (h : f.Traverses v [root] s calls r) (hfits : f.Fits (f.size + 1) root) : f.walk v root s = r := by
  have hbound := h.length_le (forall_mem_singleton.mpr hfits)
  rw [map_singleton, sum_singleton] at hbound
  obtain ⟨spare, hspare⟩ := Nat.exists_eq_add_of_le' (Nat.le_succ_of_le hbound)
  rw [walk, ← Nat.succ_eq_add_one, hspare]
  refine (h.run_eq spare []).trans ?_
  obtain ⟨completed, t⟩ := r
  cases completed with
  | true => exact run_nil spare t
  | false => rfl

/-- A walk makes the calls of the traversal. -/
theorem walk_recording (h : f.Traverses v [root] s calls r) (hfits : f.Fits (f.size + 1) root) :
    f.walk v.recording root (s, []) = (r.1, r.2, calls) := by
  obtain ⟨_, hlogged⟩ := h.recording []
  exact hlogged.walk_eq hfits

end Traverses

/-- Where walks down end, there is a traversal for every visitor. -/
theorem exists_traverses (v : Visitor σ) (hfits : ∀ id ∈ ids, f.Fits n id) (s : σ) :
    ∃ calls r, f.Traverses v ids s calls r := by
  induction n generalizing ids s with
  | zero =>
    cases ids with
    | nil => exact ⟨_, _, .done⟩
    | cons id rest => exact (hfits id mem_cons_self).elim
  | succ n ih =>
    induction ids generalizing s with
    | nil => exact ⟨_, _, .done⟩
    | cons id rest ihrest =>
      obtain ⟨hid, hrest⟩ := forall_mem_cons.mp hfits
      rcases hvisit : v.visit id s with ⟨decision, t⟩
      cases decision with
      | stop => exact ⟨_, _, .stop hvisit⟩
      | skipChildren =>
        obtain ⟨calls, r, hafter⟩ := ihrest hrest (v.leave id t)
        exact ⟨_, _, .skip hvisit hafter⟩
      | goOn =>
        obtain ⟨below, ⟨completed, u⟩, hbelow⟩ := ih hid t
        cases completed with
        | false => exact ⟨_, _, .stopBelow hvisit hbelow⟩
        | true =>
          obtain ⟨calls, r, hafter⟩ := ihrest hrest (v.leave id u)
          exact ⟨_, _, .goOn hvisit hbelow hafter⟩

/-! ## Trees -/

/-- Below a node there is a tree: every handle that is reached is a node, and no node is reached twice. -/
structure TreeBelow (f : Forest) (root : NodeId) : Prop where
  inside : ∀ way x, f.follow? way root = some x → x < f.size
  once : ∀ way way' x, f.follow? way root = some x → f.follow? way' root = some x → way = way'

theorem TreeBelow.fits (h : f.TreeBelow root) : f.Fits (f.size + 1) root := by
  by_contra hcut
  have hlong := le_length_descend_of_not_fits hcut
  have hshort : (f.descend (f.size + 1) root).length ≤ f.size := by
    refine length_le_size (nodup_descend_of_once h.once) fun x hx => ?_
    obtain ⟨way, -, hway⟩ := mem_descend_iff_follow?.mp hx
    exact h.inside way x hway
  omega

/-- Where files are trees, there is a tree below each of their nodes. -/
theorem TreeShaped.treeBelow (h : f.TreeShaped) (hid : f.Reachable id) : f.TreeBelow id := by
  obtain ⟨i, way, hway⟩ := hid
  refine ⟨fun way' x hx => h.inside x ⟨i, _, arrive?_append hway hx⟩, fun a b x ha hb => ?_⟩
  exact append_cancel_left (h.once i _ i _ x (arrive?_append hway ha) (arrive?_append hway hb)).2

/-- **A walk is the recursive traversal**: below the root of a tree a walk makes the calls of the traversal, in order
and in the same states, and ends in the same way. It is broken off exactly if a visit said stop, and if every visit goes
on, the nodes are visited in the order in which `descendants` lists them. -/
theorem walk_traverses (h : f.TreeBelow root) (v : Visitor σ) (s : σ) :
    f.walk v.recording root (s, []) = ((f.walk v root s).1, (f.walk v root s).2, f.walkCalls v root s) ∧
    (∀ calls r, f.Traverses v [root] s calls r ↔ calls = f.walkCalls v root s ∧ r = f.walk v root s) ∧
    ((f.walk v root s).1 = false ↔ ∃ id t, .visit id t ∈ f.walkCalls v root s ∧ (v.visit id t).1 = .stop) ∧
    ((∀ id t, .visit id t ∈ f.walkCalls v root s → (v.visit id t).1 = .goOn) →
      visited (f.walkCalls v root s) = f.descendants root) := by
  have hroot := forall_mem_singleton.mpr h.fits
  have hwalk : ∀ calls r, f.Traverses v [root] s calls r → calls = f.walkCalls v root s ∧ r = f.walk v root s := by
    intro calls r htraverses
    rw [walkCalls, htraverses.walk_recording h.fits, htraverses.walk_eq h.fits]
    exact ⟨rfl, rfl⟩
  obtain ⟨calls, r, htraverses⟩ := exists_traverses v hroot s
  obtain ⟨rfl, rfl⟩ := hwalk calls r htraverses
  refine ⟨htraverses.walk_recording h.fits, fun calls r => ⟨hwalk calls r, ?_⟩, htraverses.stopped_iff, fun hon => ?_⟩
  · rintro ⟨rfl, rfl⟩
    exact htraverses
  · rw [htraverses.visited_eq hroot hon, flatMap_singleton, descendants]

/-- Two blocks with variables, in a file. -/
def twoBlocks : Forest where
  nodes := #[{ kind := .var "a" }, { kind := .var "b" }, { kind := .var "c" }, { kind := .block, children := [0, 1] },
    { kind := .block, children := [2] }, { kind := .file, children := [3, 4] }]
  files := [{ path := "a", root := 5 }]

/-- A visitor that counts its calls, skips what is below the second and stops at the fifth. -/
def impatient : Visitor Nat where
  visit _ n := (if n = 1 then .skipChildren else if n = 4 then .stop else .goOn, n + 1)
  leave _ n := n + 1

/-- A visitor that counts visits. -/
def counting : Visitor Nat where
  visit _ n := (.goOn, n + 1)

theorem walk_traverses_twoBlocks : twoBlocks.TreeBelow 5 ∧
    twoBlocks.Traverses impatient [5] 0 [.visit 5 0, .visit 3 1, .leave 3 2, .visit 4 3, .visit 2 4] (false, 5) ∧
    (twoBlocks.walk impatient 5 0).1 = false ∧
    (∃ id t, .visit id t ∈ twoBlocks.walkCalls impatient 5 0 ∧ (impatient.visit id t).1 = .stop) ∧
    visited (twoBlocks.walkCalls counting 5 0) = twoBlocks.descendants 5 ∧
    twoBlocks.descendants 5 = [5, 3, 0, 1, 4, 2] := by
  have hshaped : twoBlocks.TreeShaped := treeShaped_iff.mpr (by decide)
  have hbelow : twoBlocks.TreeBelow 5 := hshaped.treeBelow ⟨0, [], rfl⟩
  obtain ⟨-, htraverses, hstopped, -⟩ := walk_traverses hbelow impatient 0
  obtain ⟨-, -, -, hvisited⟩ := walk_traverses hbelow counting 0
  exact ⟨hbelow, (htraverses _ _).mpr (by decide), rfl, hstopped.mp rfl, hvisited fun _ _ _ => rfl, rfl⟩

end Forest

end EventAtlas
