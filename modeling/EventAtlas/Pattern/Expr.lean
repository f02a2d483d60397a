import EventAtlas.Pattern.CharSet

/-!
# Patterns and what they match

A pattern takes a position in a text to the positions at which a match from there may end. A set of positions is
taken to a set of positions, so alternatives are unions and sequences are compositions. A text matches if from some
position some position is reached. Which match is found first, and how greedy a repetition is, cannot be seen.
-/

namespace EventAtlas.Pattern

/-- A condition on a position. -/
inductive Anchor where
  | textStart
  | textEnd
  | lineStart
  | lineEnd
  /-- At the start, or after a line end made of carriage return and line feed, or of one of them. -/
  | lineStartCrlf
  | lineEndCrlf
  /-- Of the two characters around, one belongs to the set and the other does not. -/
  | boundary (w : CharSet)
  | notBoundary (w : CharSet)
  | wordStart (w : CharSet)
  | wordEnd (w : CharSet)
  | wordStartHalf (w : CharSet)
  | wordEndHalf (w : CharSet)
deriving Inhabited, Repr, BEq

inductive Expr where
  | empty
  | chars (s : CharSet)
  | anchor (a : Anchor)
  | seq (p q : Expr)
  | alt (p q : Expr)
  /-- At least `least` times and, if given, at most `most` times. -/
  | times (p : Expr) (least : Nat) (most : Option Nat)
deriving Inhabited, Repr, BEq

/-- The code point before a position. -/
def before? (text : Array Nat) (i : Nat) : Option Nat :=
  if i = 0 then none else text[i - 1]?

namespace Anchor

/-- The condition holds at the position. -/
def holds (text : Array Nat) (i : Nat) : Anchor → Bool
  | textStart => i == 0
  | textEnd => i == text.size
  | lineStart => i == 0 || before? text i == some 10
  | lineEnd => i == text.size || text[i]? == some 10
  | lineStartCrlf =>
    i == 0 || before? text i == some 10 || (before? text i == some 13 && text[i]? != some 10)
  | lineEndCrlf =>
    i == text.size || text[i]? == some 13 || (text[i]? == some 10 && before? text i != some 13)
  | boundary w => inside w (before? text i) != inside w text[i]?
  | notBoundary w => inside w (before? text i) == inside w text[i]?
  | wordStart w => !inside w (before? text i) && inside w text[i]?
  | wordEnd w => inside w (before? text i) && !inside w text[i]?
  | wordStartHalf w => !inside w (before? text i)
  | wordEndHalf w => !inside w text[i]?
where
  /-- There is a character and it belongs to the set. -/
  inside (w : CharSet) : Option Nat → Bool
    | some n => w.contains n
    | none => false

end Anchor

/-- The positions of both lists in ascending order, each once; both lists are such. -/
def merge : List Nat → List Nat → List Nat
  | [], js => js
  | is, [] => is
  | i :: is, j :: js =>
    if i < j then i :: merge is (j :: js)
    else if j < i then j :: merge (i :: is) js
    else i :: merge is js

/-- Go on `n` times, stopping when nothing new is reached. -/
def closure (step : List Nat → List Nat) : Nat → List Nat → List Nat
  | 0, is => is
  | n + 1, is =>
    let wider := merge is (step is)
    if wider.length == is.length then is else closure step n wider

def iterate (step : List Nat → List Nat) : Nat → List Nat → List Nat
  | 0, is => is
  | n + 1, is => if is.isEmpty then [] else iterate step n (step is)

def upTo (step : List Nat → List Nat) : Nat → List Nat → List Nat
  | 0, is => is
  | n + 1, is => if is.isEmpty then [] else merge is (upTo step n (step is))

namespace Expr

/-- The positions reached from a set of positions. -/
def reach (text : Array Nat) : Expr → List Nat → List Nat
  | empty, is => is
  | chars s, is => is.filterMap fun i =>
    match text[i]? with
    | some n => if s.contains n then some (i + 1) else none
    | none => none
  | anchor a, is => is.filter fun i => a.holds text i
  | seq p q, is => q.reach text (p.reach text is)
  | alt p q, is => merge (p.reach text is) (q.reach text is)
  | times p least none, is => closure (p.reach text) (text.size + 1) (iterate (p.reach text) least is)
  | times p least (some most), is => upTo (p.reach text) (most - least) (iterate (p.reach text) least is)

/-- How large a pattern is once its repetitions are written out. -/
def weight : Expr → Nat
  | empty | anchor _ => 1
  | chars (.range ..) => 1
  | chars _ => 16
  | seq p q | alt p q => p.weight + q.weight + 1
  | times p least none => p.weight * max least 1 + 1
  | times p _ (some most) => p.weight * most + 1

end Expr

end EventAtlas.Pattern
