import GraphQL.Document
import GraphQL.Execution.Completion
import GraphQL.Execution.Operation
import GraphQL.Input.Variables
import GraphQL.Validation.Plan

/-!
Answering requests. What is not executed at all has only errors; else the errors of the fields
stand in the order of the response.
-/
namespace GraphQL

open Ast

structure Request (σ : Type) where
  schema : Schema
  resolvers : Resolvers σ
  rootValue : Json := .null
  vars : Entries Json := []
  operationName : Option String := none

structure Response where
  data : Option Json
  errors : List GraphQLError

def Response.ofErrors (errors : List GraphQLError) : Response := ⟨none, errors⟩

variable {σ : Type}

def Request.prepare (request : Request σ) (document : Document)
    (scheduler : Scheduler σ RecordedError Completion := .rounds) :
    Except (List GraphQLError) (Execution σ × TypeSystem.ObjectType) := do
  let operation ← (selectOperation document request.operationName).mapError fun e =>
    [e.toGraphQLError]
  let vars ← (variableValues request.schema operation request.vars).mapError
    (·.map CoercionError.toGraphQLError)
  match request.schema.root? operation.operation with
  | none => throw [(ExecutionError.missingRootType operation.operation.text).toGraphQLError]
  | some root =>
    return (⟨request.schema, fragmentTable document, operation, vars, request.rootValue,
      request.resolvers, scheduler⟩, root)

/-- Lexicographic order; a position comes before those below it. -/
def ordinalsLe : List Nat → List Nat → Bool
  | [], _ => true
  | _ :: _, [] => false
  | i :: rest, j :: others => i < j || (i = j && ordinalsLe rest others)

/-- Errors in the order of the response; those of one position stay as recorded. -/
def inResponseOrder (errors : List RecordedError) : List GraphQLError :=
  (errors.mergeSort fun e f => ordinalsLe e.ordinals f.ordinals).map (·.error)

/-- Executes an operation of a document as it is. There is no response if it nests more than
`depth` objects below its root. -/
def execute (request : Request σ) (document : Document) (depth : Nat) (s : σ)
    (scheduler : Scheduler σ RecordedError Completion := .rounds) : Option (Response × σ) :=
  match request.prepare document scheduler with
  | .error errors => some (.ofErrors errors, s)
  | .ok (x, root) =>
    ((x.completeRoot depth root).run s).map fun (data, errors, s) =>
      (⟨data, inResponseOrder errors⟩, s)

/-- Answers a request for a query text: parses it, validates it by the default rules and executes
it. Nothing is resolved unless it is valid. -/
def answer (request : Request σ) (query : String) (depth : Nat) (s : σ) :
    Option (Response × σ) :=
  match parseQuery query with
  | .error e => some (.ofErrors [e.toGraphQLError], s)
  | .ok document =>
    match validate request.schema document defaultRules with
    | [] => execute request document depth s
    | errors => some (.ofErrors (errors.map (·.toGraphQLError)), s)

end GraphQL
