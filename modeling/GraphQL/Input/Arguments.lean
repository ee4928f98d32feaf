import GraphQL.Ast.Printer
import GraphQL.Input.Literal

/-!
The values of the arguments written on a field or directive.
-/
namespace GraphQL

open TypeSystem

inductive ArgumentError where
  | variableWithoutValue (argument : String) (type : TypeRef) (name : String)
  | missing (argument : String) (type : TypeRef)
  | nullNotAllowed (argument : String) (type : TypeRef)
  | invalid (argument : String) (literal : Ast.Value)

def ArgumentError.message : ArgumentError → String
  | variableWithoutValue argument type name =>
    "Argument \"" ++ argument ++ "\" of required type \"" ++ type.text ++
      "\" was provided the variable \"$" ++ name ++ "\" which was not provided a runtime value."
  | missing argument type =>
    "Argument \"" ++ argument ++ "\" of required type \"" ++ type.text ++ "\" was not provided."
  | nullNotAllowed argument type =>
    "Argument \"" ++ argument ++ "\" of non-null type \"" ++ type.text ++ "\" must not be null."
  | invalid argument literal =>
    "Argument \"" ++ argument ++ "\" has invalid value " ++ literal.print ++ "."

/-- The literal null, or a variable whose value is null. -/
def literalIsNull (vars : Entries Json) : Ast.Value → Bool
  | .null _ => true
  | .variable v => ((vars.get? v.name.value).map Json.isNull).getD false
  | _ => false

/-- The value of one argument, `none` if it is left out. `written` is its literal, if there. -/
def argumentValue (schema : Schema) (vars : Entries Json) (d : InputValue)
    (written : Option Ast.Value) : Except ArgumentError (Option Json) :=
  match written.filter (isProvided vars) with
  | some literal =>
    if literalIsNull vars literal && d.type.isNonNull then
      .error (.nullNotAllowed d.name d.type)
    else match literalValue schema vars literal d.type with
      | some value => .ok (some value)
      | none => .error (.invalid d.name literal)
  | none =>
    match d.default with
    | some default => .ok (some default.toJson)
    | none =>
      if d.type.isNonNull then
        match written with
        | some (.variable v) => .error (.variableWithoutValue d.name d.type v.name.value)
        | _ => .error (.missing d.name d.type)
      else .ok none

def writtenArgument (arguments : List Ast.Argument) (name : String) : Option Ast.Value :=
  (arguments.find? (·.name.value = name)).map (·.value)

/-- The values of arguments after those in `built`, in the order of their definitions. -/
def argumentValuesFrom (schema : Schema) (vars : Entries Json)
    (arguments : List Ast.Argument) :
    Entries Json → List InputValue → Except ArgumentError (Entries Json)
  | built, [] => .ok built
  | built, d :: rest =>
    match argumentValue schema vars d (writtenArgument arguments d.name) with
    | .error e => .error e
    | .ok none => argumentValuesFrom schema vars arguments built rest
    | .ok (some value) =>
      argumentValuesFrom schema vars arguments (built.insert d.name value) rest

def argumentValues (schema : Schema) (definitions : List InputValue)
    (arguments : List Ast.Argument) (vars : Entries Json) :
    Except ArgumentError (Entries Json) :=
  argumentValuesFrom schema vars arguments [] definitions

end GraphQL
