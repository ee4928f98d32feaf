import GraphQL.Json.Reader
import GraphQL.Text.Bytes
import GraphQL.Text.Lines

/-!
The values of string tokens. A quoted string has escapes; a block string loses its outer blank
lines and common indentation, and its only escape is that of the triple quote.
-/
namespace GraphQL

/-- Four characters that spell a number in hexadecimal; the first may be a plus sign. -/
def escapeQuad? (a b c d : Char) : Option Nat :=
  if a = '+' then hexQuad? '0' b c d else hexQuad? a b c d

/-- Resolves the escapes of a quoted string; `\b` stands for U+0010. -/
def unescape? : List Char → Option (List Char)
  | [] => some []
  | '\\' :: 'u' :: a :: b :: c :: d :: rest =>
    match (escapeQuad? a b c d).bind charOfNat? with
    | some char => (unescape? rest).map (char :: ·)
    | none => none
  | '\\' :: c :: rest =>
    match c with
    | '"' => (unescape? rest).map ('"' :: ·)
    | '\\' => (unescape? rest).map ('\\' :: ·)
    | '/' => (unescape? rest).map ('/' :: ·)
    | 'b' => (unescape? rest).map (Char.ofNat 0x10 :: ·)
    | 'f' => (unescape? rest).map (Char.ofNat 0x0C :: ·)
    | 'n' => (unescape? rest).map ('\n' :: ·)
    | 'r' => (unescape? rest).map ('\r' :: ·)
    | 't' => (unescape? rest).map ('\t' :: ·)
    | _ => none
  | ['\\'] => none
  | c :: rest => (unescape? rest).map (c :: ·)

def isBlankLine (line : List Char) : Bool := line.all isWhiteSpace

def indentation (line : List Char) : Nat := bytes (line.takeWhile isWhiteSpace)

/-- The least indentation of the lines that are not blank. -/
def commonIndentation : List (List Char) → Option Nat
  | [] => none
  | line :: rest =>
    if isBlankLine line then commonIndentation rest
    else match commonIndentation rest with
      | none => some (indentation line)
      | some n => some (min (indentation line) n)

def dedent (n : Nat) (line : List Char) : List Char :=
  if n ≤ bytes line then dropBytes n line else line

def unescapeTripleQuotes : List Char → List Char
  | [] => []
  | '\\' :: '"' :: '"' :: '"' :: rest => '"' :: '"' :: '"' :: unescapeTripleQuotes rest
  | c :: rest => c :: unescapeTripleQuotes rest

/-- The value of a block string: the indentation common to the lines after the first is removed
from those lines, and blank lines at both ends are dropped. -/
def blockStringValue (raw : List Char) : List Char :=
  match splitLines raw with
  | [] => []
  | first :: rest =>
    let dedented := match commonIndentation rest with
      | none => first :: rest
      | some n => first :: rest.map (dedent n)
    let kept := ((dedented.dropWhile isBlankLine).reverse.dropWhile isBlankLine).reverse
    joinLines (kept.map unescapeTripleQuotes)

end GraphQL
