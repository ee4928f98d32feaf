import GraphQL.Validation.Rule

/-!
Rules on the definitions of a document: all are executable, operations have different names, and
an operation without a name is alone.
-/
namespace GraphQL.Validation

open Ast

def definitionName : Definition → Option String
  | .operation d => d.name.map (·.value)
  | .fragment d => some d.name.value
  | .schema _ => none
  | .scalar d => some d.name.value
  | .object d => some d.name.value
  | .interface d => some d.name.value
  | .union d => some d.name.value
  | .enum d => some d.name.value
  | .inputObject d => some d.name.value
  | .directive d => some d.name.value

def executableDefinitions : ValidationRule :=
  ruleOf "ExecutableDefinitions" fun context =>
    (context.document.definitions.filter fun d => !d.isExecutable).map fun d =>
      ⟨startOf d.loc, .notExecutable (definitionName d)⟩

/-- The operations whose name is among those `known` by their first location, or occurs earlier;
each is reported with the first of its name. -/
def duplicateOperations (known : Entries (List Position)) : List OperationDefinition → List Finding
  | [] => []
  | d :: rest =>
    match d.name with
    | none => duplicateOperations known rest
    | some name =>
      match known.get? name.value with
      | some first =>
        ⟨first ++ startOf d.loc, .duplicateOperation name.value⟩ :: duplicateOperations known rest
      | none => duplicateOperations (known.insert name.value (startOf d.loc)) rest

def uniqueOperationNames : ValidationRule :=
  ruleOf "UniqueOperationNames" fun context => duplicateOperations [] context.document.operations

def loneAnonymousOperation : ValidationRule :=
  ruleOf "LoneAnonymousOperation" fun context =>
    let operations := context.document.operations
    if operations.length < 2 then []
    else (operations.filter (·.name.isNone)).map fun d =>
      ⟨startOf d.loc, .anonymousOperationNotAlone⟩

end GraphQL.Validation
