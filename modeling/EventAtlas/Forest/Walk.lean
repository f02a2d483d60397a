import EventAtlas.Forest.Arena

/-!
# Walks

A visitor carries a state. It is asked at every node before its children, where it may go on, skip the children
or stop, and it is told about every node after its children. The walk keeps a list of things to do, so the
order of calls is the order in which that list is worked off.
-/

namespace EventAtlas

/-- What to do after a visit. -/
inductive Decision where
  | goOn
  | skipChildren
  | stop
deriving Inhabited, Repr, DecidableEq

/-- A visitor with a state. -/
structure Visitor (σ : Type) where
  visit : NodeId → σ → Decision × σ
  leave : NodeId → σ → σ := fun _ s => s

namespace Walk

/-- One thing to do. -/
inductive Frame where
  | enter (id : NodeId)
  | leave (id : NodeId)
deriving Repr, DecidableEq

/-- The number of visits below a node, at most `n` levels deep, if none is skipped. -/
def weight (f : Forest) : Nat → NodeId → Nat
  | 0, _ => 0
  | n + 1, id => 1 + ((f.children id).map (weight f n)).foldr (· + ·) 0

/-- Work off the list, at most `n` frames. The answer says whether the walk was completed. -/
def run (f : Forest) (v : Visitor σ) : Nat → List Frame → σ → Bool × σ
  | 0, _, s => (true, s)
  | _ + 1, [], s => (true, s)
  | n + 1, .leave id :: rest, s => run f v n rest (v.leave id s)
  | n + 1, .enter id :: rest, s =>
    match v.visit id s with
    | (.stop, s) => (false, s)
    | (.skipChildren, s) => run f v n (.leave id :: rest) s
    | (.goOn, s) => run f v n ((f.children id).map .enter ++ .leave id :: rest) s

end Walk

/-- Walk the tree below `root`. The answer says whether the visitor let it run to its end. -/
def Forest.walk (f : Forest) (v : Visitor σ) (root : NodeId) (s : σ) : Bool × σ :=
  Walk.run f v (2 * Walk.weight f (f.size + 1) root + 1) [.enter root] s

end EventAtlas
