import GraphQL.Ast.Basic

/-!
Nodes of any kind, and the slots that hold the children of each kind. A node is determined by
its kind, its payload, its children slot by slot, and its span: `Node.assemble` builds it from
these parts.
-/
namespace GraphQL.Ast

inductive Kind where
  | name | document | operationDefinition | variableDefinition | variable | selectionSet | field
  | argument | fragmentSpread | inlineFragment | fragmentDefinition | intValue | floatValue
  | stringValue | booleanValue | nullValue | enumValue | listValue | objectValue | objectField
  | directive | namedType | listType | nonNullType | schemaDefinition | operationTypeDefinition
  | scalarTypeDefinition | objectTypeDefinition | fieldDefinition | inputValueDefinition
  | interfaceTypeDefinition | unionTypeDefinition | enumTypeDefinition | enumValueDefinition
  | inputObjectTypeDefinition | directiveDefinition
deriving DecidableEq

namespace Kind

def all : List Kind :=
  [name, document, operationDefinition, variableDefinition, .variable, selectionSet, field,
    argument, fragmentSpread, inlineFragment, fragmentDefinition, intValue, floatValue,
    stringValue, booleanValue, nullValue, enumValue, listValue, objectValue, objectField,
    directive, namedType, listType, nonNullType, schemaDefinition, operationTypeDefinition,
    scalarTypeDefinition, objectTypeDefinition, fieldDefinition, inputValueDefinition,
    interfaceTypeDefinition, unionTypeDefinition, enumTypeDefinition, enumValueDefinition,
    inputObjectTypeDefinition, directiveDefinition]

def text : Kind → String
  | name => "Name"
  | document => "Document"
  | operationDefinition => "OperationDefinition"
  | variableDefinition => "VariableDefinition"
  | .variable => "Variable"
  | selectionSet => "SelectionSet"
  | field => "Field"
  | argument => "Argument"
  | fragmentSpread => "FragmentSpread"
  | inlineFragment => "InlineFragment"
  | fragmentDefinition => "FragmentDefinition"
  | intValue => "IntValue"
  | floatValue => "FloatValue"
  | stringValue => "StringValue"
  | booleanValue => "BooleanValue"
  | nullValue => "NullValue"
  | enumValue => "EnumValue"
  | listValue => "ListValue"
  | objectValue => "ObjectValue"
  | objectField => "ObjectField"
  | directive => "Directive"
  | namedType => "NamedType"
  | listType => "ListType"
  | nonNullType => "NonNullType"
  | schemaDefinition => "SchemaDefinition"
  | operationTypeDefinition => "OperationTypeDefinition"
  | scalarTypeDefinition => "ScalarTypeDefinition"
  | objectTypeDefinition => "ObjectTypeDefinition"
  | fieldDefinition => "FieldDefinition"
  | inputValueDefinition => "InputValueDefinition"
  | interfaceTypeDefinition => "InterfaceTypeDefinition"
  | unionTypeDefinition => "UnionTypeDefinition"
  | enumTypeDefinition => "EnumTypeDefinition"
  | enumValueDefinition => "EnumValueDefinition"
  | inputObjectTypeDefinition => "InputObjectTypeDefinition"
  | directiveDefinition => "DirectiveDefinition"

def ofText? (text : String) : Option Kind := all.find? (·.text = text)

end Kind

/-- A node of any kind. -/
inductive Node where
  | name (n : Name)
  | document (d : Document)
  | definition (d : Definition)
  | variableDefinition (d : VariableDefinition)
  | selectionSet (s : SelectionSet)
  | selection (s : Selection)
  | argument (a : Argument)
  | value (v : Value)
  | objectField (f : ObjectField)
  | directive (d : Directive)
  | type (t : TypeNode)
  | operationTypeDefinition (d : OperationTypeDefinition)
  | fieldDefinition (d : FieldDefinition)
  | inputValueDefinition (d : InputValueDefinition)
  | enumValueDefinition (d : EnumValueDefinition)

def Value.kind : Value → Kind
  | .variable _ => .variable
  | int _ _ => .intValue
  | float _ _ => .floatValue
  | string _ => .stringValue
  | boolean _ _ => .booleanValue
  | null _ => .nullValue
  | enum _ _ => .enumValue
  | list _ _ => .listValue
  | object _ _ => .objectValue

def Value.loc : Value → Option Location
  | .variable v => v.loc
  | int _ loc => loc
  | float _ loc => loc
  | string s => s.loc
  | boolean _ loc => loc
  | null loc => loc
  | enum _ loc => loc
  | list _ loc => loc
  | object _ loc => loc

def TypeNode.kind : TypeNode → Kind
  | named _ => .namedType
  | list _ _ => .listType
  | nonNull _ _ => .nonNullType

def TypeNode.loc : TypeNode → Option Location
  | named t => t.loc
  | list _ loc => loc
  | nonNull _ loc => loc

def Selection.kind : Selection → Kind
  | field _ => .field
  | spread _ => .fragmentSpread
  | inlineFragment _ => .inlineFragment

def Selection.loc : Selection → Option Location
  | field f => f.loc
  | spread s => s.loc
  | inlineFragment f => f.loc

def Definition.kind : Definition → Kind
  | operation _ => .operationDefinition
  | fragment _ => .fragmentDefinition
  | schema _ => .schemaDefinition
  | scalar _ => .scalarTypeDefinition
  | object _ => .objectTypeDefinition
  | interface _ => .interfaceTypeDefinition
  | union _ => .unionTypeDefinition
  | enum _ => .enumTypeDefinition
  | inputObject _ => .inputObjectTypeDefinition
  | directive _ => .directiveDefinition

def Definition.loc : Definition → Option Location
  | operation d => d.loc
  | fragment d => d.loc
  | schema d => d.loc
  | scalar d => d.loc
  | object d => d.loc
  | interface d => d.loc
  | union d => d.loc
  | enum d => d.loc
  | inputObject d => d.loc
  | directive d => d.loc

/-- What a node holds besides its children and its span. -/
inductive Payload where
  | none
  | text (value : String)
  | string (value : String) (block : Bool)
  | flag (value : Bool)
  | operation (value : OperationType)
deriving DecidableEq

namespace Node

def kind : Node → Kind
  | name _ => .name
  | document _ => .document
  | definition d => d.kind
  | variableDefinition _ => .variableDefinition
  | selectionSet _ => .selectionSet
  | selection s => s.kind
  | argument _ => .argument
  | value v => v.kind
  | objectField _ => .objectField
  | directive _ => .directive
  | type t => t.kind
  | operationTypeDefinition _ => .operationTypeDefinition
  | fieldDefinition _ => .fieldDefinition
  | inputValueDefinition _ => .inputValueDefinition
  | enumValueDefinition _ => .enumValueDefinition

def loc : Node → Option Location
  | name n => n.loc
  | document d => d.loc
  | definition d => d.loc
  | variableDefinition d => d.loc
  | selectionSet s => s.loc
  | selection s => s.loc
  | argument a => a.loc
  | value v => v.loc
  | objectField f => f.loc
  | directive d => d.loc
  | type t => t.loc
  | operationTypeDefinition d => d.loc
  | fieldDefinition d => d.loc
  | inputValueDefinition d => d.loc
  | enumValueDefinition d => d.loc

def payload : Node → Payload
  | name n => .text n.value
  | value (.int text _) => .text text
  | value (.float text _) => .text text
  | value (.enum text _) => .text text
  | value (.string s) => .string s.value s.block
  | value (.boolean b _) => .flag b
  | definition (.operation d) => .operation d.operation
  | operationTypeDefinition d => .operation d.operation
  | definition (.directive d) => .flag d.repeatable
  | _ => .none

def name? : Node → Option Name
  | name n => some n
  | _ => none

def definition? : Node → Option Definition
  | definition d => some d
  | _ => none

def variableDefinition? : Node → Option VariableDefinition
  | variableDefinition d => some d
  | _ => none

def selectionSet? : Node → Option SelectionSet
  | selectionSet s => some s
  | _ => none

def selection? : Node → Option Selection
  | selection s => some s
  | _ => none

def argument? : Node → Option Argument
  | argument a => some a
  | _ => none

def value? : Node → Option Value
  | value v => some v
  | _ => none

def variableValue? : Node → Option Variable
  | value (.variable v) => some v
  | _ => none

def stringValue? : Node → Option StringValue
  | value (.string s) => some s
  | _ => none

def objectField? : Node → Option ObjectField
  | objectField f => some f
  | _ => none

def directive? : Node → Option Directive
  | directive d => some d
  | _ => none

def type? : Node → Option TypeNode
  | type t => some t
  | _ => none

def namedType? : Node → Option NamedType
  | type (.named t) => some t
  | _ => none

def operationTypeDefinition? : Node → Option OperationTypeDefinition
  | operationTypeDefinition d => some d
  | _ => none

def fieldDefinition? : Node → Option FieldDefinition
  | fieldDefinition d => some d
  | _ => none

def inputValueDefinition? : Node → Option InputValueDefinition
  | inputValueDefinition d => some d
  | _ => none

def enumValueDefinition? : Node → Option EnumValueDefinition
  | enumValueDefinition d => some d
  | _ => none

end Node

/-- How many children a slot holds. -/
inductive Arity where
  | one | optional | many
deriving DecidableEq

/-- The kinds of nodes that a slot takes: one kind, or all of a category. -/
inductive Category where
  | only (kind : Kind)
  | definition | selection | value | type
deriving DecidableEq

def Category.has : Category → Kind → Bool
  | only kind, k => k = kind
  | definition, k => k ∈ [.operationDefinition, .fragmentDefinition, .schemaDefinition,
      .scalarTypeDefinition, .objectTypeDefinition, .interfaceTypeDefinition,
      .unionTypeDefinition, .enumTypeDefinition, .inputObjectTypeDefinition,
      .directiveDefinition]
  | selection, k => k ∈ [.field, .fragmentSpread, .inlineFragment]
  | value, k => k ∈ [.variable, .intValue, .floatValue, .stringValue, .booleanValue, .nullValue,
      .enumValue, .listValue, .objectValue]
  | type, k => k ∈ [.namedType, .listType, .nonNullType]

/-- A place for children in the nodes of one kind. -/
structure Slot where
  key : String
  arity : Arity
  takes : Category
deriving DecidableEq

namespace Slot

def one (key : String) (takes : Category) : Slot := ⟨key, .one, takes⟩
def optional (key : String) (takes : Category) : Slot := ⟨key, .optional, takes⟩
def many (key : String) (takes : Category) : Slot := ⟨key, .many, takes⟩

def name : Slot := one "name" (.only .name)
def description : Slot := optional "description" (.only .stringValue)
def directives : Slot := many "directives" (.only .directive)
def arguments : Slot := many "arguments" (.only .argument)
def argumentDefinitions : Slot := many "arguments" (.only .inputValueDefinition)
def interfaces : Slot := many "interfaces" (.only .namedType)
def fieldDefinitions : Slot := many "fields" (.only .fieldDefinition)
def type : Slot := one "type" .type
def value : Slot := one "value" .value
def defaultValue : Slot := optional "default_value" .value
def selectionSet : Slot := one "selection_set" (.only .selectionSet)

end Slot

/-- The slots of a kind, in grammar order. -/
def Kind.slots : Kind → List Slot
  | document => [.many "definitions" .definition]
  | operationDefinition => [.optional "name" (.only .name),
      .many "variable_definitions" (.only .variableDefinition), .directives, .selectionSet]
  | variableDefinition => [.one "variable" (.only .variable), .type, .defaultValue, .directives]
  | .variable => [.name]
  | selectionSet => [.many "selections" .selection]
  | field => [.optional "alias" (.only .name), .name, .arguments, .directives,
      .optional "selection_set" (.only .selectionSet)]
  | argument => [.name, .value]
  | fragmentSpread => [.name, .directives]
  | inlineFragment => [.optional "type_condition" (.only .namedType), .directives, .selectionSet]
  | fragmentDefinition =>
    [.name, .one "type_condition" (.only .namedType), .directives, .selectionSet]
  | listValue => [.many "values" .value]
  | objectValue => [.many "fields" (.only .objectField)]
  | objectField => [.name, .value]
  | directive => [.name, .arguments]
  | namedType => [.name]
  | listType => [.type]
  | nonNullType => [.type]
  | schemaDefinition =>
    [.directives, .many "operation_types" (.only .operationTypeDefinition)]
  | operationTypeDefinition => [.one "type" (.only .namedType)]
  | scalarTypeDefinition => [.description, .name, .directives]
  | objectTypeDefinition => [.description, .name, .interfaces, .directives, .fieldDefinitions]
  | interfaceTypeDefinition => [.description, .name, .interfaces, .directives, .fieldDefinitions]
  | fieldDefinition => [.description, .name, .argumentDefinitions, .type, .directives]
  | inputValueDefinition => [.description, .name, .type, .defaultValue, .directives]
  | unionTypeDefinition => [.description, .name, .directives, .many "types" (.only .namedType)]
  | enumTypeDefinition =>
    [.description, .name, .directives, .many "values" (.only .enumValueDefinition)]
  | enumValueDefinition => [.description, .name, .directives]
  | inputObjectTypeDefinition =>
    [.description, .name, .directives, .many "fields" (.only .inputValueDefinition)]
  | directiveDefinition =>
    [.description, .name, .argumentDefinitions, .many "locations" (.only .name)]
  | name | intValue | floatValue | stringValue | booleanValue | nullValue | enumValue => []

namespace Node

/-- The one child of a slot. -/
def required {α : Type} (as : Node → Option α) : List Node → Option α
  | [n] => as n
  | _ => none

/-- The child of an optional slot. -/
def atMostOne {α : Type} (as : Node → Option α) : List Node → Option (Option α)
  | [] => some none
  | [n] => (as n).map some
  | _ => none

/-- The node of a kind with this payload, these children slot by slot, and this span. -/
def assemble (kind : Kind) (payload : Payload) (children : List (List Node))
    (loc : Option Location) : Option Node :=
  match kind, payload, children with
  | .name, .text s, [] => some (name ⟨s, loc⟩)
  | .intValue, .text s, [] => some (value (.int s loc))
  | .floatValue, .text s, [] => some (value (.float s loc))
  | .enumValue, .text s, [] => some (value (.enum s loc))
  | .stringValue, .string s block, [] => some (value (.string ⟨s, block, loc⟩))
  | .booleanValue, .flag b, [] => some (value (.boolean b loc))
  | .nullValue, .none, [] => some (value (.null loc))
  | .document, .none, [definitions] => do
    return document ⟨← definitions.mapM definition?, loc⟩
  | .operationDefinition, .operation operation, [n, vars, directives, set] => do
    return definition (.operation ⟨operation, ← atMostOne name? n,
      ← vars.mapM variableDefinition?, ← directives.mapM directive?,
      ← required selectionSet? set, loc⟩)
  | .variableDefinition, .none, [var, t, default, directives] => do
    return variableDefinition ⟨← required variableValue? var, ← required type? t,
      ← atMostOne value? default, ← directives.mapM directive?, loc⟩
  | .variable, .none, [n] => do return value (.variable ⟨← required name? n, loc⟩)
  | .selectionSet, .none, [selections] => do
    return selectionSet ⟨← selections.mapM selection?, loc⟩
  | .field, .none, [aliasName, n, arguments, directives, set] => do
    return selection (.field ⟨← atMostOne name? aliasName, ← required name? n,
      ← arguments.mapM argument?, ← directives.mapM directive?, ← atMostOne selectionSet? set, loc⟩)
  | .argument, .none, [n, v] => do
    return argument ⟨← required name? n, ← required value? v, loc⟩
  | .fragmentSpread, .none, [n, directives] => do
    return selection (.spread ⟨← required name? n, ← directives.mapM directive?, loc⟩)
  | .inlineFragment, .none, [condition, directives, set] => do
    return selection (.inlineFragment ⟨← atMostOne namedType? condition,
      ← directives.mapM directive?, ← required selectionSet? set, loc⟩)
  | .fragmentDefinition, .none, [n, condition, directives, set] => do
    return definition (.fragment ⟨← required name? n, ← required namedType? condition,
      ← directives.mapM directive?, ← required selectionSet? set, loc⟩)
  | .listValue, .none, [values] => do return value (.list (← values.mapM value?) loc)
  | .objectValue, .none, [fields] => do return value (.object (← fields.mapM objectField?) loc)
  | .objectField, .none, [n, v] => do
    return objectField ⟨← required name? n, ← required value? v, loc⟩
  | .directive, .none, [n, arguments] => do
    return directive ⟨← required name? n, ← arguments.mapM argument?, loc⟩
  | .namedType, .none, [n] => do return type (.named ⟨← required name? n, loc⟩)
  | .listType, .none, [t] => do return type (.list (← required type? t) loc)
  | .nonNullType, .none, [t] => do return type (.nonNull (← required type? t) loc)
  | .schemaDefinition, .none, [directives, types] => do
    return definition (.schema ⟨← directives.mapM directive?,
      ← types.mapM operationTypeDefinition?, loc⟩)
  | .operationTypeDefinition, .operation operation, [t] => do
    return operationTypeDefinition ⟨operation, ← required namedType? t, loc⟩
  | .scalarTypeDefinition, .none, [description, n, directives] => do
    return definition (.scalar ⟨← atMostOne stringValue? description, ← required name? n,
      ← directives.mapM directive?, loc⟩)
  | .objectTypeDefinition, .none, [description, n, interfaces, directives, fields] => do
    return definition (.object ⟨← atMostOne stringValue? description, ← required name? n,
      ← interfaces.mapM namedType?, ← directives.mapM directive?, ← fields.mapM fieldDefinition?,
      loc⟩)
  | .interfaceTypeDefinition, .none, [description, n, interfaces, directives, fields] => do
    return definition (.interface ⟨← atMostOne stringValue? description, ← required name? n,
      ← interfaces.mapM namedType?, ← directives.mapM directive?, ← fields.mapM fieldDefinition?,
      loc⟩)
  | .fieldDefinition, .none, [description, n, arguments, t, directives] => do
    return fieldDefinition ⟨← atMostOne stringValue? description, ← required name? n,
      ← arguments.mapM inputValueDefinition?, ← required type? t, ← directives.mapM directive?,
      loc⟩
  | .inputValueDefinition, .none, [description, n, t, default, directives] => do
    return inputValueDefinition ⟨← atMostOne stringValue? description, ← required name? n,
      ← required type? t, ← atMostOne value? default, ← directives.mapM directive?, loc⟩
  | .unionTypeDefinition, .none, [description, n, directives, types] => do
    return definition (.union ⟨← atMostOne stringValue? description, ← required name? n,
      ← directives.mapM directive?, ← types.mapM namedType?, loc⟩)
  | .enumTypeDefinition, .none, [description, n, directives, values] => do
    return definition (.enum ⟨← atMostOne stringValue? description, ← required name? n,
      ← directives.mapM directive?, ← values.mapM enumValueDefinition?, loc⟩)
  | .enumValueDefinition, .none, [description, n, directives] => do
    return enumValueDefinition ⟨← atMostOne stringValue? description, ← required name? n,
      ← directives.mapM directive?, loc⟩
  | .inputObjectTypeDefinition, .none, [description, n, directives, fields] => do
    return definition (.inputObject ⟨← atMostOne stringValue? description, ← required name? n,
      ← directives.mapM directive?, ← fields.mapM inputValueDefinition?, loc⟩)
  | .directiveDefinition, .flag repeatable, [description, n, arguments, locations] => do
    return definition (.directive ⟨← atMostOne stringValue? description, ← required name? n,
      ← arguments.mapM inputValueDefinition?, repeatable, ← locations.mapM name?, loc⟩)
  | _, _, _ => none

end Node

end GraphQL.Ast
