/-!
Lines of text and Unicode white space.
-/
namespace GraphQL

def isWhiteSpace (c : Char) : Bool :=
  let n := c.toNat
  (9 ≤ n && n ≤ 13) || n = 0x20 || n = 0x85 || n = 0xA0 || n = 0x1680 ||
    (0x2000 ≤ n && n ≤ 0x200A) || n = 0x2028 || n = 0x2029 || n = 0x202F || n = 0x205F || n = 0x3000

/-- Splits after each newline; a final line end starts no further line. `current` is the line
read so far, reversed. -/
def splitLinesFrom (current : List Char) : List Char → List (List Char)
  | [] => if current.isEmpty then [] else [current.reverse]
  | c :: rest =>
    if c = '\n' then
      (match current with
        | '\r' :: before => before.reverse
        | line => line.reverse) :: splitLinesFrom [] rest
    else splitLinesFrom (c :: current) rest

/-- The lines of a text, each without its line end (a newline or carriage return and newline). -/
def splitLines (text : List Char) : List (List Char) := splitLinesFrom [] text

def joinLines : List (List Char) → List Char
  | [] => []
  | [line] => line
  | line :: rest => line ++ '\n' :: joinLines rest

end GraphQL
