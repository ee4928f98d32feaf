/-!
The nodes of GraphQL documents. Every node may know its span in the source. Number literals
keep their text.
-/
namespace GraphQL.Ast

/-- A source span in bytes, with the line and column of its start. -/
structure Location where
  start : Nat
  stop : Nat
  line : Nat
  column : Nat
deriving DecidableEq

inductive OperationType where
  | query | mutation | subscription
deriving DecidableEq

def OperationType.text : OperationType → String
  | query => "query"
  | mutation => "mutation"
  | subscription => "subscription"

def OperationType.ofText? : String → Option OperationType
  | "query" => some query
  | "mutation" => some mutation
  | "subscription" => some subscription
  | _ => none

structure Name where
  value : String
  loc : Option Location := none
deriving DecidableEq

structure Variable where
  name : Name
  loc : Option Location := none
deriving DecidableEq

structure StringValue where
  value : String
  block : Bool := false
  loc : Option Location := none
deriving DecidableEq

structure NamedType where
  name : Name
  loc : Option Location := none
deriving DecidableEq

mutual

/-- An input literal, or a variable in its place. -/
inductive Value where
  | variable (v : Variable)
  | int (text : String) (loc : Option Location := none)
  | float (text : String) (loc : Option Location := none)
  | string (s : StringValue)
  | boolean (value : Bool) (loc : Option Location := none)
  | null (loc : Option Location := none)
  | enum (name : String) (loc : Option Location := none)
  | list (values : List Value) (loc : Option Location := none)
  | object (fields : List ObjectField) (loc : Option Location := none)

structure ObjectField where
  name : Name
  value : Value
  loc : Option Location := none

end

/-- A type reference as written. -/
inductive TypeNode where
  | named (t : NamedType)
  | list (item : TypeNode) (loc : Option Location := none)
  | nonNull (inner : TypeNode) (loc : Option Location := none)
deriving DecidableEq

structure Argument where
  name : Name
  value : Value
  loc : Option Location := none

structure Directive where
  name : Name
  arguments : List Argument := []
  loc : Option Location := none

structure FragmentSpread where
  name : Name
  directives : List Directive := []
  loc : Option Location := none

mutual

structure SelectionSet where
  selections : List Selection
  loc : Option Location := none

inductive Selection where
  | field (f : Field)
  | spread (s : FragmentSpread)
  | inlineFragment (f : InlineFragment)

structure Field where
  aliasName : Option Name := none
  name : Name
  arguments : List Argument := []
  directives : List Directive := []
  selectionSet : Option SelectionSet := none
  loc : Option Location := none

structure InlineFragment where
  typeCondition : Option NamedType := none
  directives : List Directive := []
  selectionSet : SelectionSet
  loc : Option Location := none

end

structure VariableDefinition where
  var : Variable
  type : TypeNode
  defaultValue : Option Value := none
  directives : List Directive := []
  loc : Option Location := none

structure OperationDefinition where
  operation : OperationType
  name : Option Name := none
  variableDefinitions : List VariableDefinition := []
  directives : List Directive := []
  selectionSet : SelectionSet
  loc : Option Location := none

structure FragmentDefinition where
  name : Name
  typeCondition : NamedType
  directives : List Directive := []
  selectionSet : SelectionSet
  loc : Option Location := none

structure OperationTypeDefinition where
  operation : OperationType
  type : NamedType
  loc : Option Location := none

structure SchemaDefinition where
  directives : List Directive := []
  operationTypes : List OperationTypeDefinition
  loc : Option Location := none

structure ScalarTypeDefinition where
  description : Option StringValue := none
  name : Name
  directives : List Directive := []
  loc : Option Location := none

structure InputValueDefinition where
  description : Option StringValue := none
  name : Name
  type : TypeNode
  defaultValue : Option Value := none
  directives : List Directive := []
  loc : Option Location := none

structure FieldDefinition where
  description : Option StringValue := none
  name : Name
  arguments : List InputValueDefinition := []
  type : TypeNode
  directives : List Directive := []
  loc : Option Location := none

structure ObjectTypeDefinition where
  description : Option StringValue := none
  name : Name
  interfaces : List NamedType := []
  directives : List Directive := []
  fields : List FieldDefinition := []
  loc : Option Location := none

structure InterfaceTypeDefinition where
  description : Option StringValue := none
  name : Name
  interfaces : List NamedType := []
  directives : List Directive := []
  fields : List FieldDefinition := []
  loc : Option Location := none

structure UnionTypeDefinition where
  description : Option StringValue := none
  name : Name
  directives : List Directive := []
  types : List NamedType := []
  loc : Option Location := none

structure EnumValueDefinition where
  description : Option StringValue := none
  name : Name
  directives : List Directive := []
  loc : Option Location := none

structure EnumTypeDefinition where
  description : Option StringValue := none
  name : Name
  directives : List Directive := []
  values : List EnumValueDefinition := []
  loc : Option Location := none

structure InputObjectTypeDefinition where
  description : Option StringValue := none
  name : Name
  directives : List Directive := []
  fields : List InputValueDefinition := []
  loc : Option Location := none

structure DirectiveDefinition where
  description : Option StringValue := none
  name : Name
  arguments : List InputValueDefinition := []
  repeatable : Bool := false
  locations : List Name
  loc : Option Location := none

/-- A definition at the top of a document. -/
inductive Definition where
  | operation (d : OperationDefinition)
  | fragment (d : FragmentDefinition)
  | schema (d : SchemaDefinition)
  | scalar (d : ScalarTypeDefinition)
  | object (d : ObjectTypeDefinition)
  | interface (d : InterfaceTypeDefinition)
  | union (d : UnionTypeDefinition)
  | enum (d : EnumTypeDefinition)
  | inputObject (d : InputObjectTypeDefinition)
  | directive (d : DirectiveDefinition)

structure Document where
  definitions : List Definition
  loc : Option Location := none

/-- The key of the field's value in the response. -/
def Field.responseKey (f : Field) : String := (f.aliasName.getD f.name).value

/-- Operations and fragments, unlike definitions of a type system. -/
def Definition.isExecutable : Definition → Bool
  | operation _ | fragment _ => true
  | _ => false

namespace TypeNode

/-- The named type under all wrappers. -/
def namedType : TypeNode → NamedType
  | named t => t
  | list item _ => item.namedType
  | nonNull inner _ => inner.namedType

def isNonNull : TypeNode → Bool
  | nonNull _ _ => true
  | _ => false

end TypeNode

namespace Document

def operations (document : Document) : List OperationDefinition :=
  document.definitions.filterMap fun
    | .operation d => some d
    | _ => none

def fragments (document : Document) : List FragmentDefinition :=
  document.definitions.filterMap fun
    | .fragment d => some d
    | _ => none

end Document

end GraphQL.Ast
