import EventAtlas.Forest.Arena

/-!
# Parents

The first linking pass writes the parent of every node below a file. It succeeds exactly if the files are trees that
share nothing: a child outside of the arena and a node that is met twice are refused.
-/

namespace EventAtlas

inductive LinkError where
  | danglingChild (parent child : NodeId)
  /-- A node that is reached twice. -/
  | sharedChild (node : NodeId)
deriving Inhabited, Repr, DecidableEq

namespace LinkError

/-- What is said about a forest that cannot be linked. -/
def message : LinkError → String
  | danglingChild parent child => "node " ++ parent.label ++ " has dangling child " ++ child.label
  | sharedChild node => "node " ++ node.label ++ " is shared by more than one parent"

end LinkError

namespace Ancestry

/-- The forest so far and which of its nodes have been met. -/
structure Progress where
  forest : Forest
  met : Array Bool

def Progress.meet (p : Progress) (id : NodeId) (parent : Option NodeId) : Progress :=
  { forest := p.forest.modify id fun n => { n with parent }
    met := p.met.modify id fun _ => true }

/-- Attach a node to its parent and everything below to it, at most `n` levels deep. A level meets a node that was
not met before, so there are no more levels than nodes. -/
def attach (root : NodeId) : Nat → Option NodeId → Progress → NodeId → Except LinkError Progress
  | 0, _, _, id => .error (.sharedChild id)
  | n + 1, parent, p, id =>
    if p.met.size ≤ id then .error (.danglingChild (parent.getD root) id)
    else if p.met.getD id false then .error (.sharedChild id)
    else (p.forest.children id).foldlM (attach root n (some id)) (p.meet id parent)

end Ancestry

/-- The forest with the parent of every node below a file. -/
def Forest.linkParents (f : Forest) : Except LinkError Forest := do
  let start : Ancestry.Progress := ⟨f, Array.replicate f.size false⟩
  let done ← f.files.foldlM
    (fun p file => Ancestry.attach file.root (f.size + 1) none p file.root) start
  return done.forest

end EventAtlas
