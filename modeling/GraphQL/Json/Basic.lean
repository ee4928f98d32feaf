import GraphQL.Entries
import GraphQL.Number.Binary64
import GraphQL.Number.Integer

/-!
JSON values: the runtime values of arguments, variables and responses. Objects keep the
order of their keys. A number is either an integer of 64 bits or a finite binary64 number,
and the two forms stay apart.
-/
namespace GraphQL

/-- An integer in the union of the signed and the unsigned 64-bit range. -/
structure JsonInteger where
  val : Int
  inRange : -9223372036854775808 ≤ val ∧ val ≤ 18446744073709551615
deriving DecidableEq

inductive Json where
  | null
  | bool (value : Bool)
  | integer (n : JsonInteger)
  | float (x : Finite64)
  | string (text : String)
  | array (items : List Json)
  | object (entries : List (String × Json))

namespace Json

instance : Inhabited Json := ⟨null⟩

/-- An integer value; numbers beyond 64 bits become floats, and infinite ones null. -/
def ofInt (n : Int) : Json :=
  if h : -9223372036854775808 ≤ n ∧ n ≤ 18446744073709551615 then integer ⟨n, h⟩
  else match Binary64.ofInt n with
    | .finite x => float x
    | _ => null

/-- A float value; what is not finite becomes null. -/
def ofBinary64 : Binary64 → Json
  | .finite x => float x
  | _ => null

def isNull : Json → Bool
  | null => true
  | _ => false

def isObject : Json → Bool
  | object _ => true
  | _ => false

def string? : Json → Option String
  | string s => some s
  | _ => none

def bool? : Json → Option Bool
  | bool b => some b
  | _ => none

/-- An integer in the signed 64-bit range. -/
def int64? : Json → Option Int
  | integer n => if InInt64 n.val then some n.val else none
  | _ => none

/-- A number that counts: an integer that is not negative. -/
def nat? : Json → Option Nat
  | integer n => n.val.toNat?
  | _ => none

/-- The number as binary64. -/
def binary64? : Json → Option Binary64
  | integer n => some (Binary64.ofInt n.val)
  | float x => some (.finite x)
  | _ => none

def entries? : Json → Option (Entries Json)
  | object entries => some entries
  | _ => none

def items? : Json → Option (List Json)
  | array items => some items
  | _ => none

def property? (value : Json) (key : String) : Option Json :=
  match value with
  | object entries => Entries.get? entries key
  | _ => none

mutual

/-- The nesting depth: zero for null and scalars, one more than the deepest member otherwise. -/
def depth : Json → Nat
  | array items => itemsDepth items + 1
  | object entries => entriesDepth entries + 1
  | _ => 0

def itemsDepth : List Json → Nat
  | [] => 0
  | item :: rest => max item.depth (itemsDepth rest)

def entriesDepth : List (String × Json) → Nat
  | [] => 0
  | (_, value) :: rest => max value.depth (entriesDepth rest)

end

end Json

end GraphQL
