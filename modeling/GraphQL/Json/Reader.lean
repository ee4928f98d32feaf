import GraphQL.Json.Text

/-!
Reading JSON text. Of two entries with one key the later value stays, at the place of the
earlier. A number without fraction and exponent that fits 64 bits is an integer, any other
number the nearest float.
-/
namespace GraphQL

def hexValue? (c : Char) : Option Nat :=
  if '0' ≤ c ∧ c ≤ '9' then some (c.toNat - 48)
  else if 'a' ≤ c ∧ c ≤ 'f' then some (c.toNat - 87)
  else if 'A' ≤ c ∧ c ≤ 'F' then some (c.toNat - 55)
  else none

def hexQuad? (a b c d : Char) : Option Nat := do
  return 4096 * (← hexValue? a) + 256 * (← hexValue? b) + 16 * (← hexValue? c) + (← hexValue? d)

/-- The character with this number, unless it is a surrogate or too large. -/
def charOfNat? (n : Nat) : Option Char :=
  if h : n.isValidChar then some (Char.ofNatAux n h) else none

namespace Json

def isBlank (c : Char) : Bool := c = ' ' || c = '\n' || c = '\r' || c = '\t'

def skipBlank (cs : List Char) : List Char := cs.dropWhile isBlank

/-- Reads the rest of a string after its opening quote; `read` holds what came before, reversed. -/
def readString (read : List Char) : List Char → Option (String × List Char)
  | [] => none
  | '"' :: rest => some (String.ofList read.reverse, rest)
  | '\\' :: 'u' :: a :: b :: c :: d :: '\\' :: 'u' :: e :: f :: g :: h :: rest =>
    match hexQuad? a b c d, hexQuad? e f g h with
    | some high, some low =>
      if 0xD800 ≤ high ∧ high < 0xDC00 ∧ 0xDC00 ≤ low ∧ low < 0xE000 then
        match charOfNat? (0x10000 + (high - 0xD800) * 0x400 + (low - 0xDC00)) with
        | some char => readString (char :: read) rest
        | none => none
      else match charOfNat? high with
        | some char => readString (char :: read) ('\\' :: 'u' :: e :: f :: g :: h :: rest)
        | none => none
    | _, _ => none
  | '\\' :: 'u' :: a :: b :: c :: d :: rest =>
    match (hexQuad? a b c d).bind charOfNat? with
    | some char => readString (char :: read) rest
    | none => none
  | '\\' :: c :: rest =>
    match c with
    | '"' => readString ('"' :: read) rest
    | '\\' => readString ('\\' :: read) rest
    | '/' => readString ('/' :: read) rest
    | 'b' => readString (Char.ofNat 8 :: read) rest
    | 'f' => readString (Char.ofNat 12 :: read) rest
    | 'n' => readString ('\n' :: read) rest
    | 'r' => readString ('\r' :: read) rest
    | 't' => readString ('\t' :: read) rest
    | _ => none
  | c :: rest => if c.toNat < 32 then none else readString (c :: read) rest

def isNumberChar (c : Char) : Bool :=
  isAsciiDigit c || c = '-' || c = '+' || c = '.' || c = 'e' || c = 'E'

/-- The value of a number's text. -/
def ofNumberText? (cs : List Char) : Option Json :=
  let (negative, body) := splitSign cs
  if body.all isAsciiDigit && !body.isEmpty then
    let n : Int := if negative then -(digitsValue body : Int) else digitsValue body
    if negative && n = 0 then some (ofBinary64 (Binary64.ofRatio true 0 1)) else some (ofInt n)
  else do
    let (digits, exponent) ← readUnsignedDecimal body
    match Binary64.ofDecimal negative digits exponent with
    | .finite x => some (float x)
    | _ => none

mutual

/-- Reads a value; every level and every item takes one from the budget. -/
def readValue : Nat → List Char → Option (Json × List Char)
  | 0, _ => none
  | budget + 1, cs =>
    match skipBlank cs with
    | 'n' :: 'u' :: 'l' :: 'l' :: rest => some (null, rest)
    | 't' :: 'r' :: 'u' :: 'e' :: rest => some (bool true, rest)
    | 'f' :: 'a' :: 'l' :: 's' :: 'e' :: rest => some (bool false, rest)
    | '"' :: rest => (readString [] rest).map fun (s, rest) => (string s, rest)
    | '[' :: rest =>
      match skipBlank rest with
      | ']' :: rest => some (array [], rest)
      | rest => (readItems budget rest).map fun (items, rest) => (array items, rest)
    | '{' :: rest =>
      match skipBlank rest with
      | '}' :: rest => some (object [], rest)
      | rest => (readEntries budget [] rest).map fun (entries, rest) => (object entries, rest)
    | rest =>
      let number := rest.takeWhile isNumberChar
      (ofNumberText? number).map fun value => (value, rest.dropWhile isNumberChar)

def readItems : Nat → List Char → Option (List Json × List Char)
  | 0, _ => none
  | budget + 1, cs =>
    match readValue budget cs with
    | none => none
    | some (item, rest) =>
      match skipBlank rest with
      | ',' :: rest => (readItems budget rest).map fun (items, rest) => (item :: items, rest)
      | ']' :: rest => some ([item], rest)
      | _ => none

def readEntries : Nat → Entries Json → List Char → Option (List (String × Json) × List Char)
  | 0, _, _ => none
  | budget + 1, built, cs =>
    match skipBlank cs with
    | '"' :: rest =>
      match readString [] rest with
      | none => none
      | some (key, rest) =>
        match skipBlank rest with
        | ':' :: rest =>
          match readValue budget rest with
          | none => none
          | some (value, rest) =>
            match skipBlank rest with
            | ',' :: rest => readEntries budget (built.insert key value) rest
            | '}' :: rest => some (built.insert key value, rest)
            | _ => none
        | _ => none
    | _ => none

end

def ofText? (source : String) : Option Json :=
  let cs := source.toList
  match readValue (2 * cs.length + 2) cs with
  | some (value, rest) => if (skipBlank rest).isEmpty then some value else none
  | none => none

end Json

end GraphQL
