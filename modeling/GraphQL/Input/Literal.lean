import GraphQL.Ast.Located
import GraphQL.Input.Scalar
import GraphQL.Schema.Basic

/-!
The runtime value of a literal written for an input type. A literal is read as a function of the
type it is wanted at, so the recursion is on the literal.
-/
namespace GraphQL

open TypeSystem Ast

/-- A literal as a function of the type it is wanted at; `none` if it does not fit. -/
abbrev TypedLiteral := TypeRef → Option Json

/-- Whether a literal gives a value: a variable does only if it has one. -/
def isProvided (vars : Entries Json) : Ast.Value → Bool
  | .variable v => vars.contains v.name.value
  | _ => true

/-- A variable: without a value, or with null, it fits nullable types only. -/
def variableAt (value : Option Json) (type : TypeRef) : Option Json :=
  match value with
  | some .null | none => if type.isNonNull then none else some .null
  | some value => some value

/-- The fields of an input object literal after those in `built`, in the order of their
definitions. Fields that are not provided take their defaults. -/
def literalFields (fields : Entries (Bool × TypedLiteral)) :
    Entries Json → List InputValue → Option (Entries Json)
  | built, [] => some built
  | built, d :: rest =>
    match fields.get? d.name with
    | some (true, literal) =>
      match literal d.type with
      | some v => literalFields fields (built.insert d.name v) rest
      | none => none
    | _ =>
      match d.default with
      | some default => literalFields fields (built.insert d.name default.toJson) rest
      | none => if d.type.isNonNull then none else literalFields fields built rest

def literalNamed (schema : Schema) (vars : Entries Json) (literal : Ast.Value)
    (fields : Entries (Bool × TypedLiteral)) (name : String) : Option Json :=
  match schema.type? name with
  | some (.scalar _) => (literal.toScalar vars name).toOption
  | some (.enum t) =>
    match literal with
    | .enum value _ => if t.values.any (·.name = value) then some (.string value) else none
    | _ => none
  | some (.inputObject t) =>
    match literal with
    | .object _ _ => (literalFields fields [] t.fields).map .object
    | _ => none
  | _ => none

/-- A literal that is no variable at a type, its items and fields being read already. A literal
that is no list stands for the list of itself. -/
def literalAt (schema : Schema) (vars : Entries Json) (literal : Ast.Value)
    (items : List TypedLiteral) (fields : Entries (Bool × TypedLiteral)) : TypeRef → Option Json
  | .nonNull inner =>
    match literal with
    | .null _ => none
    | _ => literalAt schema vars literal items fields inner
  | .list item =>
    match literal with
    | .null _ => some .null
    | .list _ _ => (items.mapM fun (literal : TypedLiteral) => literal item).map .array
    | _ => (literalAt schema vars literal items fields item).map fun v => .array [v]
  | .named name =>
    match literal with
    | .null _ => some .null
    | _ => literalNamed schema vars literal fields name

mutual

def literalValue (schema : Schema) (vars : Entries Json) : Ast.Value → TypedLiteral
  | .variable v => variableAt (vars.get? v.name.value)
  | .list values loc =>
    literalAt schema vars (.list values loc) (literalItems schema vars values) []
  | .object fields loc =>
    literalAt schema vars (.object fields loc) []
      (literalEntries schema vars fields)
  | literal => literalAt schema vars literal [] []

def literalEntry (schema : Schema) (vars : Entries Json) :
    ObjectField → String × Bool × TypedLiteral
  | ⟨name, value, _⟩ => (name.value, isProvided vars value, literalValue schema vars value)

def literalItems (schema : Schema) (vars : Entries Json) :
    List Ast.Value → List TypedLiteral
  | [] => []
  | v :: rest => literalValue schema vars v :: literalItems schema vars rest

def literalEntries (schema : Schema) (vars : Entries Json) :
    List ObjectField → List (String × Bool × TypedLiteral)
  | [] => []
  | f :: rest => literalEntry schema vars f :: literalEntries schema vars rest

end

end GraphQL
