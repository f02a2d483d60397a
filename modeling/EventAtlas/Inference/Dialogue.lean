/-!
# Dialogues

A dialogue asks questions one after the other and ends with a result. Which question comes next may depend on the
answers so far. Who answers is left open: a dialogue is a plain value, and what it means is said by giving every
question an answer. So the same dialogue can be held with different parties, and its questions can be counted, traced
and compared.
-/

namespace EventAtlas

/-- Questions, each with the type of its answers. -/
class Questions (Q : Type) where
  Answer : Q → Type

/-- A dialogue: a result, or a question and how to go on with each answer. -/
inductive Dialogue (Q : Type) [Questions Q] (α : Type) where
  | done (result : α)
  | ask (q : Q) (next : Questions.Answer q → Dialogue Q α)

namespace Dialogue

variable {Q : Type} [Questions Q] {α β : Type}

/-- Hold one dialogue, then the one that its result leads to. -/
def bind : Dialogue Q α → (α → Dialogue Q β) → Dialogue Q β
  | done a, g => g a
  | ask q next, g => ask q fun a => (next a).bind g

instance : Monad (Dialogue Q) where
  pure := done
  bind := bind

def question (q : Q) : Dialogue Q (Questions.Answer q) :=
  ask q done

/-- Hold a dialogue with a party that answers every question. -/
def interpret {m : Type → Type} [Monad m] (answer : (q : Q) → m (Questions.Answer q)) : Dialogue Q α → m α
  | done a => pure a
  | ask q next => do
    let a ← answer q
    interpret answer (next a)

end Dialogue

end EventAtlas
