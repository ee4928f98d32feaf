import GraphQL.Ast.Basic
import GraphQL.Error

/-!
The operation that a request runs.
-/
namespace GraphQL

open Ast

/-- The first operation of the given name, or the only operation if no name is given. -/
def selectOperation (document : Document) :
    Option String → Except ExecutionError OperationDefinition
  | some name =>
    match document.operations.find? fun o => o.name.any (·.value = name) with
    | some o => .ok o
    | none => .error (.unknownOperation name)
  | none =>
    match document.operations with
    | [] => .error .noOperation
    | [o] => .ok o
    | _ => .error .mustProvideOperationName

end GraphQL
