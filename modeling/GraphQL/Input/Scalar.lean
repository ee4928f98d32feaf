import GraphQL.Ast.Basic
import GraphQL.Json.Text

/-!
The built-in scalars: serializing results, coercing runtime inputs, and reading literals. All
other scalars pass values through.
-/
namespace GraphQL

inductive ScalarError where
  | intOutOfRange
  | notAnInteger
  | notNumeric
  | noStringForm
  | notAString
  | notABoolean
  | noIdForm
  | notAnId
deriving DecidableEq

def ScalarError.message (shown : String) : ScalarError → String
  | intOutOfRange => "Int cannot represent non 32-bit signed integer value: " ++ shown
  | notAnInteger => "Int cannot represent non-integer value: " ++ shown
  | notNumeric => "Float cannot represent non numeric value: " ++ shown
  | noStringForm => "String cannot represent value: " ++ shown
  | notAString => "String cannot represent a non string value: " ++ shown
  | notABoolean => "Boolean cannot represent a non boolean value: " ++ shown
  | noIdForm => "ID cannot represent value: " ++ shown
  | notAnId => "ID cannot represent a non-string and non-integer value: " ++ shown

/-- The integer of a float without fraction, clamped to 64 bits. -/
def Finite64.integral? (x : Finite64) : Option Int :=
  if x.isIntegral then some x.toInt64 else none

namespace Json

/-- The integer that a number equals; one beyond the signed 64-bit range is clamped to it. -/
def wholeNumber? : Json → Option Int
  | integer n =>
    if InInt64 n.val then some n.val else (Binary64.ofInt n.val).finite?.bind Finite64.integral?
  | float x => x.integral?
  | _ => none

def ofBinary64? : Binary64 → Option Json
  | .finite x => some (float x)
  | _ => none

end Json

/-- An Int result, if there is a number and it has 32 bits. -/
def intResult : Option Int → Except ScalarError Json
  | none => .error .notAnInteger
  | some n => if InInt32 n then .ok (Json.ofInt n) else .error .intOutOfRange

def floatResult (x : Option Binary64) : Except ScalarError Json :=
  match x.bind Json.ofBinary64? with
  | some value => .ok value
  | none => .error .notNumeric

/-- The text of a resolved value as a scalar of the named type, for the response. -/
def serializeScalar (type : String) (value : Json) : Except ScalarError Json :=
  if type = "Int" then
    intResult <| match value with
      | .bool b => some (if b then 1 else 0)
      | .string s => readInt64 s.toList
      | value => value.wholeNumber?
  else if type = "Float" then
    floatResult <| match value with
      | .bool b => some (Binary64.ofInt (if b then 1 else 0))
      | .string s => Binary64.ofText? s
      | value => value.binary64?
  else if type = "String" then
    match value with
    | .string s => .ok (.string s)
    | .bool b => .ok (.string (if b then "true" else "false"))
    | .integer n => .ok (.string (integerText n.val))
    | .float x => .ok (.string (Json.floatLayout.text x))
    | _ => .error .noStringForm
  else if type = "Boolean" then
    match value with
    | .bool b => .ok (.bool b)
    | .integer n => .ok (.bool (n.val ≠ 0))
    | .float x => .ok (.bool !x.isZero)
    | _ => .error .notABoolean
  else if type = "ID" then
    match value with
    | .string s => .ok (.string s)
    | .integer n => .ok (.string (integerText n.val))
    | _ => .error .noIdForm
  else .ok value

/-- A runtime input value as a scalar of the named type. -/
def coerceScalar (type : String) (value : Json) : Except ScalarError Json :=
  if type = "Int" then intResult value.wholeNumber?
  else if type = "Float" then floatResult value.binary64?
  else if type = "String" then
    match value with
    | .string s => .ok (.string s)
    | _ => .error .notAString
  else if type = "Boolean" then
    match value with
    | .bool b => .ok (.bool b)
    | _ => .error .notABoolean
  else if type = "ID" then
    match value with
    | .string s => .ok (.string s)
    | .integer n => .ok (.string (integerText n.val))
    | _ => .error .noIdForm
  else .ok value

namespace Ast

mutual

/-- The runtime value of a literal without type information. Variables without a value are null,
enum values their names. -/
def Value.toJson (vars : Entries Json) : Value → Json
  | .variable v => (vars.get? v.name.value).getD .null
  | .int text _ => ((readInt64 text.toList).map Json.ofInt).getD .null
  | .float text _ => ((Binary64.ofText? text).map Json.ofBinary64).getD .null
  | .string s => .string s.value
  | .boolean b _ => .bool b
  | .null _ => .null
  | .enum name _ => .string name
  | .list values _ => .array (valuesToJson vars values)
  | .object fields _ => .object (Entries.ofList (objectFieldsToJson vars fields))

def ObjectField.toEntry (vars : Entries Json) : ObjectField → String × Json
  | ⟨name, value, _⟩ => (name.value, value.toJson vars)

def valuesToJson (vars : Entries Json) : List Value → List Json
  | [] => []
  | v :: rest => v.toJson vars :: valuesToJson vars rest

def objectFieldsToJson (vars : Entries Json) : List ObjectField → List (String × Json)
  | [] => []
  | f :: rest => f.toEntry vars :: objectFieldsToJson vars rest

end

/-- The value of a literal as a scalar of the named type. Integers are valid floats and stay
integers. -/
def Value.toScalar (vars : Entries Json) (type : String) (literal : Value) :
    Except ScalarError Json :=
  if type = "Int" then
    match literal with
    | .int text _ =>
      match readInt64 text.toList with
      | some n => if InInt32 n then .ok (Json.ofInt n) else .error .intOutOfRange
      | none => .error .intOutOfRange
    | _ => .error .notAnInteger
  else if type = "Float" then
    match literal with
    | .int text _ =>
      match readInt64 text.toList with
      | some n => .ok (Json.ofInt n)
      | none => .error .notNumeric
    | .float text _ => floatResult (Binary64.ofText? text)
    | _ => .error .notNumeric
  else if type = "String" then
    match literal with
    | .string s => .ok (.string s.value)
    | _ => .error .notAString
  else if type = "Boolean" then
    match literal with
    | .boolean b _ => .ok (.bool b)
    | _ => .error .notABoolean
  else if type = "ID" then
    match literal with
    | .string s => .ok (.string s.value)
    | .int text _ => .ok (.string text)
    | _ => .error .notAnId
  else .ok (literal.toJson vars)

end Ast

end GraphQL
