import GraphQL.Input.Scalar
import GraphQL.TypeRef

/-!
What can be wrong with a document that parses, each as its cause.
-/
namespace GraphQL.Validation

inductive Violation where
  /-- A definition of a type system; schema blocks have no name. -/
  | notExecutable (name : Option String)
  | duplicateOperation (name : String)
  | anonymousOperationNotAlone
  | unknownType (name : String)
  | conditionNotComposite (fragment : Option String) (type : String)
  | variableNotInput (name : String) (type : TypeRef)
  | selectionOnLeaf (field : String) (type : TypeRef)
  | selectionMissing (field : String) (type : TypeRef)
  | unknownField (field type : String)
  | unknownFragment (name : String)
  | unusedFragment (name : String)
  | unknownDirectiveArgument (argument directive : String)
  | unknownFieldArgument (argument type field : String)
  | unknownDirective (name : String)
  | misplacedDirective (name location : String)
  | nullNotAllowed (type : TypeRef)
  /-- A literal, shown as printed, in the place of a value of the type. -/
  | unexpectedValue (type shown : String)
  | invalidScalar (e : ScalarError) (shown : String)
  | noEnumValue (value enum : String)
  | enumNotEnumValue (enum shown : String)
  | missingInputField (type field : String) (fieldType : TypeRef)
  | undefinedInputField (field type : String)

def Violation.message : Violation → String
  | notExecutable (some name) => "The \"" ++ name ++ "\" definition is not executable."
  | notExecutable none => "The schema definition is not executable."
  | duplicateOperation name => "There can be only one operation named \"" ++ name ++ "\"."
  | anonymousOperationNotAlone => "This anonymous operation must be the only defined operation."
  | unknownType name => "Unknown type \"" ++ name ++ "\"."
  | conditionNotComposite (some fragment) type =>
    "Fragment \"" ++ fragment ++ "\" cannot condition on non composite type \"" ++ type ++ "\"."
  | conditionNotComposite none type =>
    "Fragment cannot condition on non composite type \"" ++ type ++ "\"."
  | variableNotInput name type =>
    "Variable \"$" ++ name ++ "\" cannot be non-input type \"" ++ type.text ++ "\"."
  | selectionOnLeaf field type =>
    "Field \"" ++ field ++ "\" must not have a selection since type \"" ++ type.text ++
      "\" has no subfields."
  | selectionMissing field type =>
    "Field \"" ++ field ++ "\" of type \"" ++ type.text ++
      "\" must have a selection of subfields. Did you mean \"" ++ field ++ " \x7b ... \x7d\"?"
  | unknownField field type =>
    "Cannot query field \"" ++ field ++ "\" on type \"" ++ type ++ "\"."
  | unknownFragment name => "Unknown fragment \"" ++ name ++ "\"."
  | unusedFragment name => "Fragment \"" ++ name ++ "\" is never used."
  | unknownDirectiveArgument argument directive =>
    "Unknown argument \"" ++ argument ++ "\" on directive \"@" ++ directive ++ "\"."
  | unknownFieldArgument argument type field =>
    "Unknown argument \"" ++ argument ++ "\" on field \"" ++ type ++ "." ++ field ++ "\"."
  | unknownDirective name => "Unknown directive \"@" ++ name ++ "\"."
  | misplacedDirective name location =>
    "Directive \"@" ++ name ++ "\" may not be used on " ++ location ++ "."
  | nullNotAllowed type => "Expected value of type \"" ++ type.text ++ "\", found null"
  | unexpectedValue type shown =>
    "Expected value of type \"" ++ type ++ "\", found " ++ shown ++ "."
  | invalidScalar e shown => e.message shown
  | noEnumValue value enum =>
    "Value \"" ++ value ++ "\" does not exist in \"" ++ enum ++ "\" enum."
  | enumNotEnumValue enum shown =>
    "Enum \"" ++ enum ++ "\" cannot represent non-enum value: " ++ shown
  | missingInputField type field fieldType =>
    "Field \"" ++ type ++ "." ++ field ++ "\" of required type \"" ++ fieldType.text ++
      "\" was not provided."
  | undefinedInputField field type =>
    "Field \"" ++ field ++ "\" is not defined by type \"" ++ type ++ "\"."

end GraphQL.Validation
