import GraphQL.Json.Basic
import GraphQL.Number.Decimal

/-!
Compact JSON text. Strings escape the quote, the backslash and control characters below
space; all other characters stay as they are.
-/
namespace GraphQL

/-- Lower-case hexadecimal digit. -/
def hexDigit (n : Nat) : Char :=
  if n < 10 then Char.ofNat (48 + n) else Char.ofNat (87 + n)

def escapeChar (c : Char) : List Char :=
  if c = '"' then ['\\', '"']
  else if c = '\\' then ['\\', '\\']
  else if c.toNat = 8 then ['\\', 'b']
  else if c.toNat = 9 then ['\\', 't']
  else if c.toNat = 10 then ['\\', 'n']
  else if c.toNat = 12 then ['\\', 'f']
  else if c.toNat = 13 then ['\\', 'r']
  else if c.toNat < 32 then
    ['\\', 'u', '0', '0', hexDigit (c.toNat / 16), hexDigit (c.toNat % 16)]
  else [c]

/-- The text in quotes, with escapes. -/
def quoted (text : String) : String :=
  String.ofList ('"' :: text.toList.flatMap escapeChar ++ ['"'])

namespace Json

/-- Floats are positional from 10^-5 up to 10^16 and have a signed exponent outside. -/
def floatLayout : DecimalLayout := ⟨-5, 16, true, true⟩

mutual

def text : Json → String
  | null => "null"
  | bool true => "true"
  | bool false => "false"
  | integer n => integerText n.val
  | float x => floatLayout.text x
  | string s => quoted s
  | array items => "[" ++ itemsText items ++ "]"
  | object entries => "\x7b" ++ entriesText entries ++ "\x7d"

def itemsText : List Json → String
  | [] => ""
  | [item] => item.text
  | item :: rest => item.text ++ "," ++ itemsText rest

def entriesText : List (String × Json) → String
  | [] => ""
  | [(key, value)] => quoted key ++ ":" ++ value.text
  | (key, value) :: rest => quoted key ++ ":" ++ value.text ++ "," ++ entriesText rest

end

end Json

end GraphQL
