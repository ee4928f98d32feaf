import GraphQL.Ast.Printer
import GraphQL.Input.Literal
import GraphQL.Input.Value

/-!
The values of an operation's variables.
-/
namespace GraphQL

inductive VariableProblem where
  | notAnInputType (type : TypeRef)
  | invalidDefault (literal : Ast.Value)
  | missing (type : TypeRef)
  | nullNotAllowed (type : TypeRef)
  | invalidValue (e : InputError)

def pathText (path : List PathElement) : String :=
  String.join (path.map fun
    | .key name => "." ++ name
    | .index i => "[" ++ integerText i ++ "]")

def VariableProblem.message (name : String) : VariableProblem → String
  | notAnInputType type =>
    "Variable \"$" ++ name ++ "\" expected value of type \"" ++ type.text ++
      "\" which cannot be used as an input type."
  | invalidDefault literal =>
    "Variable \"$" ++ name ++ "\" has invalid default value " ++ literal.print ++ "."
  | missing type =>
    "Variable \"$" ++ name ++ "\" of required type \"" ++ type.text ++ "\" was not provided."
  | nullNotAllowed type =>
    "Variable \"$" ++ name ++ "\" of non-null type \"" ++ type.text ++ "\" must not be null."
  | invalidValue e =>
    "Variable \"$" ++ name ++ "\" got invalid value " ++ e.value.text ++
      (if e.path.isEmpty then "" else " at \"" ++ name ++ pathText e.path ++ "\"") ++
      "; " ++ e.message

/-- The value of one variable, `none` if it stays absent. -/
def variableValue (schema : Schema) (d : Ast.VariableDefinition) (given : Option Json) :
    Except (List VariableProblem) (Option Json) :=
  let type := d.type.toTypeRef
  if !schema.isInputType type then .error [.notAnInputType type]
  else match given with
    | none =>
      match d.defaultValue with
      | some literal =>
        match literalValue schema [] literal type with
        | some value => .ok (some value)
        | none => .error [.invalidDefault literal]
      | none => if type.isNonNull then .error [.missing type] else .ok none
    | some value =>
      if value.isNull && type.isNonNull then .error [.nullNotAllowed type]
      else match coerceInput schema value type with
        | .ok value => .ok (some value)
        | .error es => .error (es.map .invalidValue)

/-- The values of variables, each defined variable on its own: the errors of all, or the values
of those present in definition order. -/
def variableValuesFrom (schema : Schema) (given : Entries Json) (built : Entries Json)
    (errors : List CoercionError) :
    List Ast.VariableDefinition → Except (List CoercionError) (Entries Json)
  | [] => if errors.isEmpty then .ok built else .error errors
  | d :: rest =>
    let name := d.var.name.value
    match variableValue schema d (given.get? name) with
    | .ok none => variableValuesFrom schema given built errors rest
    | .ok (some value) => variableValuesFrom schema given (built.insert name value) errors rest
    | .error problems =>
      variableValuesFrom schema given built
        (errors ++ problems.map fun problem => ⟨problem.message name, Ast.startOf d.loc⟩) rest

def variableValues (schema : Schema) (operation : Ast.OperationDefinition)
    (given : Entries Json) : Except (List CoercionError) (Entries Json) :=
  variableValuesFrom schema given [] [] operation.variableDefinitions

end GraphQL
