import GraphQL.Execution.Resolver
import GraphQL.Input.Arguments

/-!
What can go wrong with a field while it is resolved and its value completed.
-/
namespace GraphQL

/-- Fields are named as `Type.field`. -/
inductive FieldProblem where
  | argument (e : ArgumentError)
  | resolver (e : FieldError)
  | panic (message : Option String)
  | nullNotAllowed (field : String)
  | notIterable (field : String)
  | invalidScalar (e : ScalarError) (value : Json)
  | invalidEnum (enum : String) (value : Json)
  | unknownOutputType (type : String)
  /-- Nothing names the object type of the value. -/
  | unresolvedType (abstract field : String)
  | notAPossibleType (type abstract : String)
  | notAnObjectType (type abstract field : String)
  | unknownRuntimeType (type abstract : String)

namespace FieldProblem

def message : FieldProblem → String
  | argument e => e.message
  | resolver e => e.message
  | panic message => message.getD "Resolver panicked."
  | nullNotAllowed field => "Cannot return null for non-nullable field " ++ field ++ "."
  | notIterable field =>
    "Expected Iterable, but did not find one for field \"" ++ field ++ "\"."
  | invalidScalar e value => e.message value.text
  | invalidEnum enum value => "Enum \"" ++ enum ++ "\" cannot represent value: " ++ value.text
  | unknownOutputType type => "Unknown output type \"" ++ type ++ "\"."
  | unresolvedType abstract field =>
    "Abstract type \"" ++ abstract ++
      "\" must resolve to an Object type at runtime for field \"" ++ field ++
      "\". Either register a type resolver for \"" ++ abstract ++
      "\" or return \"__typename\" with the value."
  | notAPossibleType type abstract =>
    "Runtime Object type \"" ++ type ++ "\" is not a possible type for \"" ++ abstract ++ "\"."
  | notAnObjectType type abstract field =>
    "Abstract type \"" ++ abstract ++
      "\" must resolve to an Object type at runtime for field \"" ++ field ++
      "\". Received \"" ++ type ++ "\"."
  | unknownRuntimeType type abstract =>
    "Abstract type \"" ++ abstract ++ "\" was resolved to a type \"" ++ type ++
      "\" that does not exist inside the schema."

def extensions : FieldProblem → Entries Json
  | resolver e => e.extensions
  | _ => []

end FieldProblem

def Outcome.toExcept : Outcome → Except FieldProblem Json
  | value v => .ok v
  | failed e => .error (.resolver e)
  | panicked message => .error (.panic message)

end GraphQL
