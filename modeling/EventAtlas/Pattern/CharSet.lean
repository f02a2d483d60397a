import EventAtlas.Text.Blank
import EventAtlas.Text.Fold
import EventAtlas.Text.Letter

/-!
# Sets of characters

The sets that a pattern can name: ranges, the classes of digits, blanks and word characters, and what set operations
make of them. A set may be closed under case.
-/

namespace EventAtlas.Pattern

inductive CharSet where
  /-- The characters between two code points, both included. -/
  | range (first last : Nat)
  | empty
  | letter
  | digit
  | space
  | word
  | compl (s : CharSet)
  | union (s t : CharSet)
  | inter (s t : CharSet)
  /-- The set with every character that differs from a member in case only. -/
  | anyCase (s : CharSet)
deriving Inhabited, Repr, BEq

namespace CharSet

def contains : CharSet → Nat → Bool
  | range first last, n => first ≤ n && n ≤ last
  | empty, _ => false
  | letter, n => Text.isLetter (Char.ofNat n)
  | digit, n => Text.isDecimal (Char.ofNat n)
  | space, n => Text.isBlank (Char.ofNat n)
  | word, n => Text.isWord (Char.ofNat n)
  | compl s, n => !s.contains n
  | union s t, n => s.contains n || t.contains n
  | inter s t, n => s.contains n && t.contains n
  | anyCase s, n => (Text.caseVariants n).any s.contains

def single (c : Char) : CharSet :=
  range c.toNat c.toNat

/-- The members of the first set that are not in the second. -/
def diff (s t : CharSet) : CharSet :=
  inter s (compl t)

def symmDiff (s t : CharSet) : CharSet :=
  union (diff s t) (diff t s)

def ranges (rs : List (Char × Char)) : CharSet :=
  rs.foldl (fun s r => union s (range r.1.toNat r.2.toNat)) empty

def all : CharSet :=
  compl empty

def asciiClass? : String → Option CharSet
  | "alnum" => some (ranges [('0', '9'), ('A', 'Z'), ('a', 'z')])
  | "alpha" => some (ranges [('A', 'Z'), ('a', 'z')])
  | "ascii" => some (range 0 0x7F)
  | "blank" => some (ranges [('\t', '\t'), (' ', ' ')])
  | "cntrl" => some (union (range 0 0x1F) (range 0x7F 0x7F))
  | "digit" => some (ranges [('0', '9')])
  | "graph" => some (ranges [('!', '~')])
  | "lower" => some (ranges [('a', 'z')])
  | "print" => some (ranges [(' ', '~')])
  | "punct" => some (ranges [('!', '/'), (':', '@'), ('[', '\x60'), ('\x7b', '~')])
  | "space" => some (union (range 9 13) (single ' '))
  | "upper" => some (ranges [('A', 'Z')])
  | "word" => some (ranges [('0', '9'), ('A', 'Z'), ('_', '_'), ('a', 'z')])
  | "xdigit" => some (ranges [('0', '9'), ('A', 'F'), ('a', 'f')])
  | _ => none

def asciiDigit : CharSet :=
  ranges [('0', '9')]

def asciiSpace : CharSet :=
  union (range 9 13) (single ' ')

def asciiWord : CharSet :=
  ranges [('0', '9'), ('A', 'Z'), ('_', '_'), ('a', 'z')]

/-- The classes of characters that a pattern can give by name. -/
def property? : String → Option CharSet
  | "alphabetic" | "alpha" => some letter
  | "nd" | "digit" | "decimalnumber" => some digit
  | "whitespace" | "space" | "wspace" => some space
  | "any" => some all
  | "ascii" => some (range 0 0x7F)
  | _ => none

end CharSet

end EventAtlas.Pattern
