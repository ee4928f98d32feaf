import GraphQL.Execution.Collection
import GraphQL.Execution.Interleaving
import GraphQL.Execution.Problem

/-!
Resolving fields and completing their values. A field that fails records its error and becomes
null; where its type does not allow null, the null travels up to the nearest position that does.
-/
namespace GraphQL

open Ast TypeSystem

/-- A position in the response, and the place of each step among its siblings. -/
structure ResponsePath where
  elements : List PathElement := []
  ordinals : List Nat := []

def ResponsePath.child (path : ResponsePath) (element : PathElement) (ordinal : Nat) :
    ResponsePath :=
  ⟨path.elements ++ [element], path.ordinals ++ [ordinal]⟩

structure RecordedError where
  ordinals : List Nat
  error : GraphQLError

/-- A completed value, or `none` for a null that travels up; its error is recorded. -/
abbrev Completion := Option Json

structure Execution (σ : Type) where
  schema : Schema
  fragments : Entries FragmentDefinition
  operation : OperationDefinition
  vars : Entries Json
  rootValue : Json
  resolvers : Resolvers σ
  scheduler : Scheduler σ RecordedError Completion

/-- A null that travels up stays where the type is nullable. -/
def Completion.absorb (type : TypeRef) (c : Completion) : Completion :=
  if c.isNone && !type.isNonNull then some .null else c

/-- A field of an object type with the nodes that select it. -/
structure FieldRef where
  parent : ObjectType
  definition : TypeSystem.Field
  nodes : List Ast.Field

namespace FieldRef

def coordinate (field : FieldRef) : String := field.parent.name ++ "." ++ field.definition.name

def error (field : FieldRef) (path : ResponsePath) (problem : FieldProblem) : RecordedError :=
  ⟨path.ordinals,
    { message := problem.message
      locations := field.nodes.flatMap fun n => startOf n.loc
      path := some path.elements
      extensions := problem.extensions }⟩

def fail {σ : Type} (field : FieldRef) (path : ResponsePath) (problem : FieldProblem) :
    Work σ RecordedError Completion :=
  .record (field.error path problem) (.done none)

end FieldRef

variable {σ : Type}

namespace Execution

/-- The object type of a name as that of a value of an abstract type. -/
def objectType (x : Execution σ) (abstract : TypeDefinition) (field : FieldRef) :
    Option String → Except FieldProblem ObjectType
  | none => .error (.unresolvedType abstract.name field.coordinate)
  | some name =>
    match x.schema.type? name with
    | some (.object t) =>
      if x.schema.isPossible abstract t then .ok t
      else .error (.notAPossibleType name abstract.name)
    | some _ => .error (.notAnObjectType name abstract.name field.coordinate)
    | none => .error (.unknownRuntimeType name abstract.name)

/-- The name of the object type of a value: what the type resolver says, or else the value's own
`__typename`. -/
def runtimeTypeName (x : Execution σ) (abstract : TypeDefinition) (value : Json) :
    Work σ RecordedError (Option String) :=
  let own := (value.property? "__typename").bind Json.string?
  match x.resolvers.types.get? abstract.name with
  | none => .done own
  | some resolve => (Work.update (resolve value)).map (·.or own)

abbrev ObjectCompleter (σ : Type) :=
  ObjectType → FieldRef → ResponsePath → Json → Work σ RecordedError Completion

def completeNamed (x : Execution σ) (object : ObjectCompleter σ) (field : FieldRef)
    (path : ResponsePath) (name : String) (value : Json) : Work σ RecordedError Completion :=
  match x.schema.type? name with
  | some (.scalar _) =>
    match serializeScalar name value with
    | .ok result => .done (some result)
    | .error e => field.fail path (.invalidScalar e value)
  | some (.enum t) =>
    if value.string?.any fun s => t.values.any (·.name = s) then .done (some value)
    else field.fail path (.invalidEnum name value)
  | some (.object t) => object t field path value
  | some (.inputObject _) | none => field.fail path (.unknownOutputType name)
  | some abstract =>
    (x.runtimeTypeName abstract value).bind fun name =>
      match x.objectType abstract field name with
      | .ok t => object t field path value
      | .error problem => field.fail path problem

/-- Completes a value at a type. Items of a list are completed side by side. -/
def completeValue (x : Execution σ) (object : ObjectCompleter σ) (field : FieldRef) :
    TypeRef → ResponsePath → Json → Work σ RecordedError Completion
  | .nonNull inner, path, value =>
    (x.completeValue object field inner path value).bind fun
      | some .null => field.fail path (.nullNotAllowed field.coordinate)
      | c => .done c
  | .list item, path, value =>
    match value with
    | .null => .done (some .null)
    | .array items =>
      let completions := items.mapIdx fun i v =>
        (x.completeValue object field item (path.child (.index i) i) v).map (Completion.absorb item)
      (x.scheduler.join completions).map fun cs => (cs.mapM id).map .array
    | _ => field.fail path (.notIterable field.coordinate)
  | .named name, path, value =>
    if value.isNull then .done (some .null) else x.completeNamed object field path name value

def resolveField (x : Execution σ) (field : FieldRef) (path : ResponsePath) (source : Json) :
    Work σ RecordedError (Except FieldProblem Json) :=
  let name := field.definition.name
  if name = "__typename" then .done (.ok (.string field.parent.name))
  else
    let written := (field.nodes.head?.map (·.arguments)).getD []
    match argumentValues x.schema field.definition.arguments written x.vars with
    | .error e => .done (.error (.argument e))
    | .ok arguments =>
      match x.resolvers.resolver? field.parent.name name with
      | none => .done (.ok ((source.property? name).getD .null))
      | some resolver =>
        (resolver
          { source, arguments, parent := field.parent, field := field.definition
            path := path.elements, nodes := field.nodes, schema := x.schema
            operation := x.operation, vars := x.vars
            rootValue := x.rootValue }).lift.map Outcome.toExcept

def executeField (x : Execution σ) (object : ObjectCompleter σ) (field : FieldRef)
    (path : ResponsePath) (source : Json) : Work σ RecordedError Completion :=
  let type := field.definition.type
  ((x.resolveField field path source).bind fun
    | .ok value => x.completeValue object field type path value
    | .error problem => field.fail path problem).map (Completion.absorb type)

/-- The work of each response key whose field is defined on the type. -/
def fieldWorks (x : Execution σ) (object : ObjectCompleter σ) (type : ObjectType) (source : Json)
    (fields : Entries (List Ast.Field)) (path : ResponsePath) :
    List (String × Work σ RecordedError Completion) :=
  (fields.mapIdx fun i (key, nodes) => do
    let first ← nodes.head?
    let definition ← x.schema.field? (.object type) first.name.value
    return (key, x.executeField object ⟨type, definition, nodes⟩ (path.child (.key key) i)
      source)).filterMap id

/-- The fields of an object, side by side. -/
def joined (x : Execution σ) (works : List (String × Work σ RecordedError Completion)) :
    Work σ RecordedError Completion :=
  (x.scheduler.join (works.map (·.2))).map fun cs =>
    (cs.mapM id).map fun values => .object ((works.map (·.1)).zip values)

/-- The fields of an object one after another; a null that travels up ends them. -/
def oneByOne :
    List (String × Work σ RecordedError Completion) → Entries Json →
      Work σ RecordedError Completion
  | [], built => .done (some (.object built))
  | (key, work) :: rest, built =>
    work.bind fun
      | some value => oneByOne rest (built ++ [(key, value)])
      | none => .done none

def collect (x : Execution σ) (type : ObjectType) (sets : List SelectionSet) :
    Entries (List Ast.Field) :=
  collectFields ⟨x.schema, x.fragments, x.vars, .object type⟩ sets

/-- Completes an object: the fields selected on it, at most `depth` objects deep. -/
def completeObject (x : Execution σ) : Nat → ObjectCompleter σ
  | 0, _, _, _, _ => .stop
  | depth + 1, type, field, path, value =>
    let fields := x.collect type (field.nodes.filterMap (·.selectionSet))
    x.joined (x.fieldWorks (x.completeObject depth) type value fields path)

/-- The fields of the operation on the root value. Those of a mutation run one after another. -/
def completeRoot (x : Execution σ) (depth : Nat) (type : ObjectType) :
    Work σ RecordedError Completion :=
  let fields := x.collect type [x.operation.selectionSet]
  let works := x.fieldWorks (x.completeObject depth) type x.rootValue fields {}
  match x.operation.operation with
  | .mutation => oneByOne works []
  | _ => x.joined works

end Execution

end GraphQL
