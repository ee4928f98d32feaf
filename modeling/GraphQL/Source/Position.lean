import GraphQL.Text.Bytes

/-!
Positions in source text, and their byte offsets. Lines and columns start at one.
-/
namespace GraphQL

structure Position where
  line : Nat
  column : Nat
deriving DecidableEq, Inhabited

namespace Position

def start : Position := ⟨1, 1⟩

def right (p : Position) (columns : Nat) : Position := ⟨p.line, p.column + columns⟩

def nextLine (p : Position) : Position := ⟨p.line + 1, 1⟩

/-- The position after a token's text: newlines in it start new lines. -/
def after (p : Position) : List Char → Position
  | [] => p
  | c :: rest => (if c = '\n' then p.nextLine else p.right 1).after rest

end Position

/-- A line of the source: where it starts, in bytes and characters, and all text from there. -/
structure LineStart where
  byte : Nat
  index : Nat
  text : List Char

/-- A source text with the starts of its lines. -/
structure Lines where
  source : List Char
  starts : List LineStart

namespace Lines

def startsFrom (byte index : Nat) : List Char → List LineStart
  | [] => []
  | c :: rest =>
    let later := startsFrom (byte + c.utf8Size) (index + 1) rest
    if c = '\n' then ⟨byte + c.utf8Size, index + 1, rest⟩ :: later else later

def ofText (source : List Char) : Lines := ⟨source, ⟨0, 0, source⟩ :: startsFrom 0 0 source⟩

def size (lines : Lines) : Nat := bytes lines.source

/-- The characters before a position. Columns may run past the end of the line; positions past
the end of the text are its end. -/
def charsBefore (lines : Lines) (p : Position) : Nat :=
  match lines.starts[p.line - 1]? with
  | none => lines.source.length
  | some start => start.index + min (p.column - 1) start.text.length

def offset (lines : Lines) (p : Position) : Nat :=
  match lines.starts[p.line - 1]? with
  | none => lines.size
  | some start => start.byte + bytes (start.text.take (p.column - 1))

/-- The last place in a text where three dots start, the text itself starting at `p`. -/
def lastSpread (p : Position) : List Char → Option Position
  | [] => none
  | c :: rest =>
    match lastSpread (if c = '\n' then p.nextLine else p.right 1) rest with
    | some found => some found
    | none => if ['.', '.', '.'].isPrefixOf (c :: rest) then some p else none

/-- Where the `...` of an inline fragment starts that is known by the token after it: at `p`
itself if dots stand there, else at the last dots before. -/
def spreadStart (lines : Lines) (p : Position) : Position :=
  let before := lines.charsBefore p
  if ['.', '.', '.'].isPrefixOf (lines.source.drop before) then p
  else (lastSpread Position.start (lines.source.take before)).getD p

end Lines

end GraphQL
