import GraphQL.Json.Basic
import GraphQL.Number.Decimal

/-!
Input literals by value: numbers are numbers and object fields are sorted by name.
-/
namespace GraphQL

inductive Literal where
  | variable (name : String)
  | int (n : Int)
  | float (x : Binary64)
  | string (text : String)
  | boolean (value : Bool)
  | null
  | enum (name : String)
  | list (items : List Literal)
  | object (fields : List (String × Literal))

namespace Literal

instance : Inhabited Literal := ⟨null⟩

/-- Puts a field at its place in name order; of two with one name the later stays. -/
def insertField (name : String) (value : Literal) :
    List (String × Literal) → List (String × Literal)
  | [] => [(name, value)]
  | (k, v) :: rest =>
    if name < k then (name, value) :: (k, v) :: rest
    else if name = k then (name, value) :: rest
    else (k, v) :: insertField name value rest

/-- An object literal of fields in written order. -/
def ofFields (fields : List (String × Literal)) : Literal :=
  object (fields.foldl (fun sorted (name, value) => insertField name value sorted) [])

mutual

/-- The runtime value of a literal without type information. A variable, and a float that is not
finite, is null; an enum value is its name. -/
def toJson : Literal → Json
  | .variable _ => .null
  | int n => if InInt64 n then Json.ofInt n else .null
  | float x => Json.ofBinary64 x
  | string text => .string text
  | boolean value => .bool value
  | null => .null
  | enum name => .string name
  | list items => .array (itemsToJson items)
  | object fields => .object (fieldsToJson fields)

def itemsToJson : List Literal → List Json
  | [] => []
  | item :: rest => item.toJson :: itemsToJson rest

def fieldsToJson : List (String × Literal) → List (String × Json)
  | [] => []
  | (name, value) :: rest => (name, value.toJson) :: fieldsToJson rest

end

end Literal

end GraphQL
