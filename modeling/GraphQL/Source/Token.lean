import GraphQL.Source.Position

/-!
Tokens of GraphQL source text and the text each is read from.
-/
namespace GraphQL

inductive Punctuator where
  | bang | dollar | colon | equals | at | pipe | ampersand
  | parenLeft | parenRight | bracketLeft | bracketRight | braceLeft | braceRight
  | spread
deriving DecidableEq

inductive Token where
  | punctuator (p : Punctuator)
  | name (text : String)
  | int (text : List Char)
  | float (text : List Char)
  /-- What stands between the quotes, escapes unread. -/
  | string (raw : List Char)
  /-- What stands between the triple quotes, escapes and indentation unread. -/
  | blockString (raw : List Char)
deriving DecidableEq

/-- A token with the position of its first character. -/
structure Lexeme where
  position : Position
  token : Token
deriving DecidableEq

def Punctuator.ofChar? : Char → Option Punctuator
  | '!' => some .bang
  | '$' => some .dollar
  | ':' => some .colon
  | '=' => some .equals
  | '@' => some .at
  | '|' => some .pipe
  | '&' => some .ampersand
  | '(' => some .parenLeft
  | ')' => some .parenRight
  | '[' => some .bracketLeft
  | ']' => some .bracketRight
  | '{' => some .braceLeft
  | '}' => some .braceRight
  | _ => none

def Punctuator.isOpening (p : Punctuator) : Bool :=
  p = .parenLeft || p = .bracketLeft || p = .braceLeft

def Punctuator.isClosing (p : Punctuator) : Bool :=
  p = .parenRight || p = .bracketRight || p = .braceRight

def isNameStart (c : Char) : Bool :=
  c = '_' || ('a' ≤ c && c ≤ 'z') || ('A' ≤ c && c ≤ 'Z')

def isNameChar (c : Char) : Bool := isNameStart c || ('0' ≤ c && c ≤ '9')

/-- A letter or underscore, then letters, digits and underscores. -/
def isName (text : String) : Bool :=
  match text.toList with
  | [] => false
  | c :: rest => isNameStart c && rest.all isNameChar

end GraphQL
