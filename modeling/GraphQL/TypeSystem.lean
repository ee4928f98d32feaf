import GraphQL.Source.Literal
import GraphQL.Source.Position
import GraphQL.TypeRef

/-!
The definitions of a type-system document, with their source positions. A schema is built from
them.
-/
namespace GraphQL.TypeSystem

/-- A directive applied to a definition. -/
structure Directive where
  position : Position
  name : String
  arguments : List (String × Literal)

/-- An argument definition or a field of an input object. -/
structure InputValue where
  position : Position
  description : Option String
  name : String
  type : TypeRef
  default : Option Literal
  directives : List Directive

structure Field where
  position : Position
  description : Option String
  name : String
  arguments : List InputValue
  type : TypeRef
  directives : List Directive

structure ScalarType where
  position : Position
  description : Option String
  name : String
  directives : List Directive

structure ObjectType where
  position : Position
  description : Option String
  name : String
  interfaces : List String
  directives : List Directive
  fields : List Field

structure InterfaceType where
  position : Position
  description : Option String
  name : String
  interfaces : List String
  directives : List Directive
  fields : List Field

structure UnionType where
  position : Position
  description : Option String
  name : String
  directives : List Directive
  types : List String

structure EnumValue where
  position : Position
  description : Option String
  name : String
  directives : List Directive

structure EnumType where
  position : Position
  description : Option String
  name : String
  directives : List Directive
  values : List EnumValue

structure InputObjectType where
  position : Position
  description : Option String
  name : String
  directives : List Directive
  fields : List InputValue

inductive TypeDefinition where
  | scalar (t : ScalarType)
  | object (t : ObjectType)
  | interface (t : InterfaceType)
  | union (t : UnionType)
  | enum (t : EnumType)
  | inputObject (t : InputObjectType)

structure DirectiveDefinition where
  position : Position
  description : Option String
  name : String
  arguments : List InputValue
  repeatable : Bool
  locations : List String

/-- A schema block: its root types. -/
structure SchemaDefinition where
  position : Position
  directives : List Directive
  query : Option String
  mutation : Option String
  subscription : Option String

inductive Definition where
  | schema (d : SchemaDefinition)
  | type (d : TypeDefinition)
  | directive (d : DirectiveDefinition)
  /-- An extension of the named type. -/
  | extension (name : String)

/-- A value must be given: the type is non-null and there is no default. -/
def InputValue.isRequired (v : InputValue) : Bool := v.type.isNonNull && v.default.isNone

namespace TypeDefinition

def name : TypeDefinition → String
  | scalar t => t.name
  | object t => t.name
  | interface t => t.name
  | union t => t.name
  | enum t => t.name
  | inputObject t => t.name

def isAbstract : TypeDefinition → Bool
  | interface _ | union _ => true
  | _ => false

def isLeaf : TypeDefinition → Bool
  | scalar _ | enum _ => true
  | _ => false

def isInput : TypeDefinition → Bool
  | scalar _ | enum _ | inputObject _ => true
  | _ => false

def isOutput : TypeDefinition → Bool
  | inputObject _ => false
  | _ => true

def isComposite : TypeDefinition → Bool
  | object _ | interface _ | union _ => true
  | _ => false

def isObject : TypeDefinition → Bool
  | object _ => true
  | _ => false

/-- The fields of an object or interface type. -/
def fields : TypeDefinition → List Field
  | object t => t.fields
  | interface t => t.fields
  | _ => []

def field? (t : TypeDefinition) (name : String) : Option Field :=
  t.fields.find? (·.name = name)

/-- The fields of an input object type. -/
def inputFields : TypeDefinition → List InputValue
  | inputObject t => t.fields
  | _ => []

def inputField? (t : TypeDefinition) (name : String) : Option InputValue :=
  t.inputFields.find? (·.name = name)

def enumValue? (t : TypeDefinition) (name : String) : Option EnumValue :=
  match t with
  | enum t => t.values.find? (·.name = name)
  | _ => none

/-- The interfaces that an object or interface type lists. -/
def interfaces : TypeDefinition → List String
  | object t => t.interfaces
  | interface t => t.interfaces
  | _ => []

end TypeDefinition

end GraphQL.TypeSystem
