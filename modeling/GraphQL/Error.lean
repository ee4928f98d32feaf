import GraphQL.Json.Text
import GraphQL.Source.Position

/-!
The errors of the library, each as its cause, and the one shape that responses report them in.
-/
namespace GraphQL

/-- One step of a response or input path. -/
inductive PathElement where
  | key (name : String)
  | index (i : Nat)
deriving DecidableEq

structure GraphQLError where
  message : String
  locations : List Position := []
  path : Option (List PathElement) := none
  extensions : Entries Json := []

/-- The error with an error code among its extensions. -/
def GraphQLError.withCode (e : GraphQLError) (code : String) : GraphQLError :=
  { e with extensions := e.extensions.insert "code" (.string code) }

/-- A node cannot be made of these parts. -/
inductive AstError where
  | invalidName (text : String)
  | invalidEnumValue (text : String)
  | invalidInt (text : String)
  | invalidFloat (text : String)
  | nestedNonNull
  | unsupportedExtension (type : String)
deriving DecidableEq

def AstError.message : AstError → String
  | invalidName text =>
    "Names must match /^[_a-zA-Z][_a-zA-Z0-9]*$/ but \"" ++ text ++ "\" does not."
  | invalidEnumValue text => "Enum values cannot be named \"" ++ text ++ "\"."
  | invalidInt text => "\"" ++ text ++ "\" is not a valid Int literal."
  | invalidFloat text => "\"" ++ text ++ "\" is not a valid Float literal."
  | nestedNonNull => "A non-null type cannot wrap another non-null type."
  | unsupportedExtension type =>
    "Type extensions are not supported (extending \"" ++ type ++ "\")."

/-- What a parse of a text fails with. -/
def parseFailure (document : String) (p : Position) : String :=
  document ++ " parse error: Parse error at " ++ integerText p.line ++ ":" ++ integerText p.column

inductive SyntaxError where
  | parse (detail : String)
  | node (e : AstError)
deriving DecidableEq

def SyntaxError.message : SyntaxError → String
  | parse detail => "Syntax Error: " ++ detail
  | node e => e.message

def SyntaxError.toGraphQLError (e : SyntaxError) : GraphQLError :=
  ({ message := e.message } : GraphQLError).withCode "GRAPHQL_PARSE_FAILED"

inductive SchemaError where
  | parse (detail : String)
  | missingQueryType (name : String)
  | invalidRootType (operation name : String)
  | duplicateType (name : String)
  | duplicateDirective (name : String)
  | unsupportedExtension (type : String)
deriving DecidableEq

def SchemaError.message : SchemaError → String
  | parse detail => "Unable to parse schema: " ++ detail
  | missingQueryType name => "Query root type \"" ++ name ++ "\" must be provided."
  | invalidRootType operation name =>
    operation ++ " root type \"" ++ name ++ "\" must be an object type."
  | duplicateType name => "There can be only one type named \"" ++ name ++ "\"."
  | duplicateDirective name => "There can be only one directive named \"@" ++ name ++ "\"."
  | unsupportedExtension type =>
    "Type extensions are not supported (extending \"" ++ type ++ "\")."

/-- What ends an execution before any field is resolved. -/
inductive ExecutionError where
  | noOperation
  | unknownOperation (name : String)
  | mustProvideOperationName
  | missingRootType (operation : String)
deriving DecidableEq

def ExecutionError.message : ExecutionError → String
  | noOperation => "Must provide an operation."
  | unknownOperation name => "Unknown operation named \"" ++ name ++ "\"."
  | mustProvideOperationName =>
    "Must provide operation name if query contains multiple operations."
  | missingRootType operation =>
    "Schema is not configured to execute " ++ operation ++ " operation."

def ExecutionError.toGraphQLError (e : ExecutionError) : GraphQLError :=
  ({ message := e.message } : GraphQLError).withCode "EXECUTION_ERROR"

/-- A variable or argument value that does not fit its type. -/
structure CoercionError where
  message : String
  locations : List Position

def CoercionError.toGraphQLError (e : CoercionError) : GraphQLError :=
  ({ message := e.message, locations := e.locations } : GraphQLError).withCode "BAD_USER_INPUT"

/-- The error a resolver returns. -/
structure FieldError where
  message : String
  extensions : Entries Json := []

def PathElement.toJson : PathElement → Json
  | key name => .string name
  | index i => Json.ofInt i

def pathToJson (path : List PathElement) : Json := .array (path.map PathElement.toJson)

def Position.toJson (p : Position) : Json :=
  .object [("line", Json.ofInt p.line), ("column", Json.ofInt p.column)]

/-- The error as it stands in a response; empty parts are left out. -/
def GraphQLError.toJson (e : GraphQLError) : Json :=
  .object <|
    [("message", .string e.message)] ++
    (if e.locations.isEmpty then []
      else [("locations", .array (e.locations.map Position.toJson))]) ++
    (match e.path with
      | none => []
      | some path => [("path", pathToJson path)]) ++
    (if e.extensions.isEmpty then [] else [("extensions", .object e.extensions)])

end GraphQL
