import GraphQL.Source.Token
import GraphQL.Number.Integer

/-!
Splitting source text into tokens. Blanks, commas and comments separate tokens; what they add
to the column is part of the positions that later stages see.
-/
namespace GraphQL

/-- Skips blanks and comments. A tab counts eight columns; a byte order mark and a carriage
return count none. A comment ends with the first carriage return or newline, which starts a
new line; one that the end of the text cuts off leaves the position at its start. -/
def skipBlanks (inComment : Bool) (p : Position) : List Char → Position × List Char
  | [] => (p, [])
  | c :: rest =>
    if inComment then
      if c = '\n' ∨ c = '\r' then skipBlanks false p.nextLine rest else skipBlanks true p rest
    else if c = '\r' ∨ c = '\ufeff' then skipBlanks false p rest
    else if c = '\t' then skipBlanks false (p.right 8) rest
    else if c = ' ' ∨ c = ',' then skipBlanks false (p.right 1) rest
    else if c = '\n' then skipBlanks false p.nextLine rest
    else if c = '#' then skipBlanks true p rest
    else (p, c :: rest)

/-- Ends a number, unlike letters, dots and quotes. -/
def endsNumber (c : Char) : Bool :=
  c ∈ [' ', '\n', '\r', '\t', ',', '#', '!', '$', ':', '=', '@', '|', '&', '(', ')', '[', ']', '{',
    '}']

def splitLast (p : Char → Bool) : List Char → Option (List Char × List Char)
  | [] => none
  | c :: rest =>
    match splitLast p rest with
    | some (before, after) => some (c :: before, after)
    | none => if p c then some ([], rest) else none

def isDigits (cs : List Char) : Bool := !cs.isEmpty && cs.all isAsciiDigit

/-- The integer part of a number whose first character is a digit or a minus: no leading zero
before other digits, and not the minus alone. -/
def isWholePart (cs : List Char) : Bool :=
  match cs with
  | ['0'] => true
  | ['-', '0'] => true
  | '0' :: _ => false
  | '-' :: '0' :: _ => false
  | ['-'] => false
  | _ :: rest => rest.all isAsciiDigit
  | [] => false

/-- A signed run of digits, or an unsigned one that starts with one of 1 to 8. -/
def isExponentPart (cs : List Char) : Bool :=
  match cs with
  | [] => false
  | c :: rest =>
    if c = '+' ∨ c = '-' then isDigits rest
    else '1' ≤ c && c ≤ '8' && rest.all isAsciiDigit

/-- An integer part, with or without a fraction; `first` is its first character. -/
def isMantissa (first : Char) (rest : List Char) : Bool :=
  match splitLast (· = '.') rest with
  | none => isWholePart (first :: rest)
  | some (whole, fraction) => isWholePart (first :: whole) && isDigits fraction

def numberToken? (first : Char) (rest : List Char) : Option Token :=
  match splitLast (fun c => c = 'e' || c = 'E') rest with
  | some (mantissa, exponent) =>
    if isMantissa first mantissa && isExponentPart exponent then some (.float (first :: rest))
    else none
  | none =>
    if isMantissa first rest then
      some (if '.' ∈ rest then .float (first :: rest) else .int (first :: rest))
    else none

def stringBody? (escaped : Bool) : List Char → Option (List Char)
  | [] => none
  | c :: rest =>
    if c = '"' ∧ !escaped then some []
    else if c = '\n' then none
    else (stringBody? (!escaped && c = '\\') rest).map (c :: ·)

/-- What stands before the closing triple quote; a backslash before it makes it text. -/
def blockStringBody? (afterBackslash : Bool) : List Char → Option (List Char)
  | [] => none
  | '"' :: '"' :: '"' :: rest =>
    if afterBackslash then (blockStringBody? false rest).map ('"' :: '"' :: '"' :: ·) else some []
  | c :: rest => (blockStringBody? (c = '\\') rest).map (c :: ·)

/-- The first token of a text that starts with one, and its length in characters. -/
def scanToken? : List Char → Option (Token × Nat)
  | [] => none
  | '.' :: rest =>
    if ['.', '.'].isPrefixOf rest then some (.punctuator .spread, 3) else none
  | '"' :: '"' :: '"' :: rest =>
    (blockStringBody? false rest).map fun raw => (.blockString raw, raw.length + 6)
  | '"' :: rest => (stringBody? false rest).map fun raw => (.string raw, raw.length + 2)
  | c :: rest =>
    match Punctuator.ofChar? c with
    | some p => some (.punctuator p, 1)
    | none =>
      if isNameStart c then
        let tail := rest.takeWhile isNameChar
        some (.name (String.ofList (c :: tail)), tail.length + 1)
      else if c = '-' ∨ isAsciiDigit c then
        let tail := rest.takeWhile (!endsNumber ·)
        (numberToken? c tail).map fun token => (token, tail.length + 1)
      else none

def nestingLimit : Nat := 50

def nestingAfter? (left : Nat) : Token → Option Nat
  | .punctuator p =>
    if p.isOpening then (if left = 0 then none else some (left - 1))
    else if p.isClosing then some (left + 1) else some left
  | _ => some left

/-- The tokens of a text up to its end, or up to the first place where none can be read. -/
structure Lexed where
  lexemes : List Lexeme
  stop : Position
  /-- Reading ended at the end of the text. -/
  complete : Bool

/-- Reads tokens; each takes one from the budget. -/
def lexFrom (left : Nat) (p : Position) (cs : List Char) : Nat → Lexed
  | 0 => ⟨[], p, false⟩
  | budget + 1 =>
    match skipBlanks false p cs with
    | (p, []) => ⟨[], p, true⟩
    | (p, cs) =>
      match scanToken? cs with
      | none => ⟨[], p, false⟩
      | some (token, length) =>
        match nestingAfter? left token with
        | none => ⟨[], p, false⟩
        | some left =>
          let rest := lexFrom left (p.after (cs.take length)) (cs.drop length) budget
          { rest with lexemes := ⟨p, token⟩ :: rest.lexemes }

def lex (source : List Char) : Lexed :=
  lexFrom nestingLimit Position.start source (source.length + 1)

end GraphQL
