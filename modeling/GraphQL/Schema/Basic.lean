import GraphQL.Ast.Basic
import GraphQL.Error
import GraphQL.Schema.Builtin
import GraphQL.Source.TypeSystem

/-!
Schemas: the types and directives of a type-system document by name, built-in ones added, and
the root types of the three operations.
-/
namespace GraphQL

open TypeSystem

structure Schema where
  types : Entries TypeDefinition
  directives : Entries DirectiveDefinition
  query : String
  mutation : Option String
  subscription : Option String

/-- The definitions read so far; of several schema blocks the last counts. -/
structure DefinitionIndex where
  types : Entries TypeDefinition := []
  directives : Entries DirectiveDefinition := []
  block : Option SchemaDefinition := none

namespace DefinitionIndex

/-- Adds definitions in order. Two types or two directives of one name, and extensions, are
errors. -/
def add : DefinitionIndex → List Definition → Except SchemaError DefinitionIndex
  | index, [] => .ok index
  | index, .schema d :: rest => add { index with block := some d } rest
  | index, .type t :: rest =>
    if index.types.contains t.name then .error (.duplicateType t.name)
    else add { index with types := index.types ++ [(t.name, t)] } rest
  | index, .directive d :: rest =>
    if index.directives.contains d.name then .error (.duplicateDirective d.name)
    else add { index with directives := index.directives ++ [(d.name, d)] } rest
  | _, .extension name :: _ => .error (.unsupportedExtension name)

/-- Adds the built-in definitions whose names are free. -/
def addBuiltins (index : DefinitionIndex) : DefinitionIndex :=
  { index with
    types := builtinScalars.foldl (fun types t => types.insertNew t.name (.scalar t)) index.types
    directives := builtinDirectives.foldl (fun ds d => ds.insertNew d.name d) index.directives }

def object? (index : DefinitionIndex) (name : String) : Option ObjectType :=
  match index.types.get? name with
  | some (.object t) => some t
  | _ => none

/-- The name as that of a root type, if it is one of an object type. -/
def defaultRoot (index : DefinitionIndex) (name : String) : Option String :=
  (index.object? name).map fun _ => name

end DefinitionIndex

namespace Schema

/-- A root type other than that of queries must be an object type. -/
def checkRoot (index : DefinitionIndex) (operation : String) :
    Option String → Except SchemaError Unit
  | none => .ok ()
  | some name =>
    match index.object? name with
    | some _ => .ok ()
    | none => .error (.invalidRootType operation name)

/-- The schema of a document. Without a schema block the root types are the object types named
Query, Mutation and Subscription; with one they are those it names, and Query by default. -/
def ofDefinitions (definitions : List Definition) : Except SchemaError Schema := do
  let index := (← DefinitionIndex.add {} definitions).addBuiltins
  let (query, mutation, subscription) := match index.block with
    | some d => (d.query.getD "Query", d.mutation, d.subscription)
    | none => ("Query", index.defaultRoot "Mutation", index.defaultRoot "Subscription")
  match index.types.get? query with
  | none => throw (.missingQueryType query)
  | some (.object _) =>
    checkRoot index "Mutation" mutation
    checkRoot index "Subscription" subscription
    return ⟨index.types, index.directives, query, mutation, subscription⟩
  | some _ => throw (.invalidRootType "Query" query)

def parse (source : String) : Except SchemaError Schema := do
  ofDefinitions (← (parseTypeSystem source).mapError fun p => .parse (parseFailure "schema" p))

def type? (schema : Schema) (name : String) : Option TypeDefinition := schema.types.get? name

def object? (schema : Schema) (name : String) : Option ObjectType :=
  match schema.type? name with
  | some (.object t) => some t
  | _ => none

def directive? (schema : Schema) (name : String) : Option DirectiveDefinition :=
  schema.directives.get? name

def rootName? (schema : Schema) : Ast.OperationType → Option String
  | .query => some schema.query
  | .mutation => schema.mutation
  | .subscription => schema.subscription

def root? (schema : Schema) (operation : Ast.OperationType) : Option ObjectType :=
  (schema.rootName? operation).bind schema.object?

/-- A field of a type. `__typename` is one of every composite type, unions included. -/
def field? (_schema : Schema) (parent : TypeDefinition) (name : String) : Option Field :=
  if name = "__typename" ∧ parent.isComposite then some typenameField else parent.field? name

def core? (schema : Schema) (type : TypeRef) : Option TypeDefinition := schema.type? type.coreName

def isInputType (schema : Schema) (type : TypeRef) : Bool :=
  ((schema.core? type).map (·.isInput)).getD false

def isOutputType (schema : Schema) (type : TypeRef) : Bool :=
  ((schema.core? type).map (·.isOutput)).getD false

/-- Whether the object type is a member of the union, an implementation of the interface, or the
object type itself. -/
def isPossible (_schema : Schema) (type : TypeDefinition) (object : ObjectType) : Bool :=
  match type with
  | .union t => t.types.any (· = object.name)
  | .interface t => object.interfaces.any (· = t.name)
  | .object t => t.name = object.name
  | _ => false

/-- The object types that a value of the type can have, in schema order. -/
def possibleTypes (schema : Schema) (type : TypeDefinition) : List ObjectType :=
  schema.types.filterMap fun
    | (_, .object object) => if schema.isPossible type object then some object else none
    | _ => none

end Schema

end GraphQL
