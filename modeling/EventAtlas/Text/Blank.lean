import EventAtlas.Text.Ascii

/-!
# Blanks

A blank is a character with the Unicode property White_Space. Trimming and splitting at blanks use this
class; lines end at a line feed, with a carriage return before it dropped.
-/

namespace EventAtlas.Text

/-- The characters with the property White_Space. -/
def isBlank (c : Char) : Bool :=
  let n := c.toNat
  (9 ≤ n && n ≤ 13) || n == 0x20 || n == 0x85 || n == 0xA0 || n == 0x1680
    || (0x2000 ≤ n && n ≤ 0x200A) || n == 0x2028 || n == 0x2029 || n == 0x202F || n == 0x205F
    || n == 0x3000

/-- The text without blanks at its ends. -/
def trim (s : String) : String :=
  dropBoth isBlank s

/-- The text without blanks at its start. -/
def trimStart (s : String) : String :=
  dropLeft isBlank s

/-- The maximal runs of characters that are no blanks. -/
def words (s : String) : List String :=
  ((pieces isBlank s.toList).filter (fun w => !w.isEmpty)).map String.ofList

/-- A line without the carriage return at its end. -/
def dropReturn (line : List Char) : List Char :=
  match line.reverse with
  | '\r' :: rest => rest.reverse
  | _ => line

/-- The lines of a text. What follows the last line feed is a line only if it is not empty. -/
def lines (s : String) : List String :=
  let all := pieces (· == '\n') s.toList
  let rest := (all.getLast?.toList).filter (fun line => !line.isEmpty)
  (all.dropLast.map dropReturn ++ rest).map String.ofList

end EventAtlas.Text
