import GraphQL.Validation.Rule

/-!
The rule on directives: they are defined, and for the place where they stand.
-/
namespace GraphQL.Validation

open Ast Visit

/-- The directive location of a definition; that of directives has none. -/
def definitionLocation : Definition → Option String
  | .operation d => match d.operation with
    | .query => some "QUERY"
    | .mutation => some "MUTATION"
    | .subscription => some "SUBSCRIPTION"
  | .fragment _ => some "FRAGMENT_DEFINITION"
  | .schema _ => some "SCHEMA"
  | .scalar _ => some "SCALAR"
  | .object _ => some "OBJECT"
  | .interface _ => some "INTERFACE"
  | .union _ => some "UNION"
  | .enum _ => some "ENUM"
  | .inputObject _ => some "INPUT_OBJECT"
  | .directive _ => none

def isInputObject : Node → Bool
  | .definition (.inputObject _) => true
  | _ => false

/-- The location of directives on the last node of a path. -/
def directiveLocation (path : List PathSegment) : Option String :=
  match path.reverse with
  | [] => none
  | owner :: outer =>
    match owner.parent with
    | .definition d => definitionLocation d
    | .selection (.field _) => some "FIELD"
    | .selection (.spread _) => some "FRAGMENT_SPREAD"
    | .selection (.inlineFragment _) => some "INLINE_FRAGMENT"
    | .variableDefinition _ => some "VARIABLE_DEFINITION"
    | .fieldDefinition _ => some "FIELD_DEFINITION"
    | .inputValueDefinition _ =>
      if outer.head?.any (isInputObject ·.parent) then some "INPUT_FIELD_DEFINITION"
      else some "ARGUMENT_DEFINITION"
    | .enumValueDefinition _ => some "ENUM_VALUE"
    | _ => none

def knownDirectives : ValidationRule :=
  NodeCheck.rule "KnownDirectives" fun context _ n path =>
    match n with
    | .directive d =>
      let name := d.name.value
      match context.schema.directive? name, directiveLocation path with
      | none, _ => [.unknownDirective name]
      | some definition, some location =>
        if definition.locations.contains location then [] else [.misplacedDirective name location]
      | some _, none => []
    | _ => []

end GraphQL.Validation
