import GraphQL.Ast.Printer
import GraphQL.Validation.Rule

/-!
The rule on literals: each is of the type wanted where it stands. Variables are not checked, and
a scalar that is not built in takes any literal.
-/
namespace GraphQL.Validation

open Ast TypeSystem

def isCustomScalar (name : String) : Bool :=
  !(["Int", "Float", "String", "Boolean", "ID"].contains name)

/-- Whether a literal has the form that a built-in scalar is written in. -/
def scalarTakes (type : String) : Value → Bool
  | .int _ _ => type = "Int" || type = "ID" || type = "Float"
  | .float _ _ => type = "Float"
  | .string _ => type = "ID" || type = "String"
  | .boolean _ _ => type = "Boolean"
  | _ => false

def scalarViolations (type : String) (literal : Value) : List Violation :=
  if scalarTakes type literal then
    match literal.toScalar [] type with
    | .ok _ => []
    | .error e => [.invalidScalar e literal.print]
  else if isCustomScalar type then []
  else [.unexpectedValue type literal.print]

def enumViolations (t : EnumType) (literal : Value) : List Violation :=
  match literal with
  | .enum value _ =>
    if t.values.any (·.name = value) then [] else [.noEnumValue value t.name]
  | _ => [.enumNotEnumValue t.name literal.print]

def leafViolations (t : TypeDefinition) (literal : Value) : List Violation :=
  match t with
  | .scalar t => scalarViolations t.name literal
  | .enum t => enumViolations t literal
  | _ => [.unexpectedValue t.name literal.print]

/-- An object literal: required fields that are missing, then fields that are not defined. -/
def objectViolations (t : TypeDefinition) (fields : List ObjectField) (literal : Value) :
    List Violation :=
  match t with
  | .inputObject t =>
    ((t.fields.filter fun d => d.isRequired && !fields.any (·.name.value = d.name)).map fun d =>
      .missingInputField t.name d.name d.type) ++
    ((fields.filter fun f => !t.fields.any (·.name = f.name.value)).map fun f =>
      .undefinedInputField f.name.value t.name)
  | .scalar s =>
    if isCustomScalar s.name then [] else [.unexpectedValue s.name literal.print]
  | _ => [.unexpectedValue t.name literal.print]

def listViolations (schema : Schema) (type : TypeRef) (literal : Value) : List Violation :=
  if type.nullable.isList then []
  else match schema.core? type with
    | some (.scalar s) =>
      if isCustomScalar s.name then [] else [.unexpectedValue type.text literal.print]
    | some _ => [.unexpectedValue type.text literal.print]
    | none => []

/-- A literal where a type is wanted. Below a list the type is that of the items already, and
`outer` is that of the list. -/
def literalViolations (schema : Schema) (type : TypeRef) (outer : Option TypeRef)
    (literal : Value) : List Violation :=
  match literal with
  | .null _ => if type.isNonNull then [.nullNotAllowed type] else []
  | .variable _ => []
  | .list _ _ => outer.elim [] fun outer => listViolations schema outer literal
  | .object fields _ => (schema.core? type).elim [] fun t => objectViolations t fields literal
  | _ => (schema.core? type).elim [] fun t => leafViolations t literal

def valuesOfCorrectType : ValidationRule :=
  NodeCheck.rule "ValuesOfCorrectType" fun context c n _ =>
    match n, c.inputType? with
    | .value literal, some type =>
      literalViolations context.schema type c.parentInputType? literal
    | _, _ => []

end GraphQL.Validation
