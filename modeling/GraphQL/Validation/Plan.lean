import GraphQL.Validation.Directives
import GraphQL.Validation.Fields
import GraphQL.Validation.Fragments
import GraphQL.Validation.Operations
import GraphQL.Validation.Types
import GraphQL.Validation.Values

/-!
The rules that every request is validated by.
-/
namespace GraphQL

open Validation

def defaultRules : List ValidationRule :=
  [executableDefinitions, uniqueOperationNames, loneAnonymousOperation, knownTypeNames,
    fragmentsOnCompositeTypes, variablesAreInputTypes, leafFieldSelections, fieldsOnCorrectType,
    knownFragmentNames, noUnusedFragments, knownArgumentNames, knownDirectives,
    valuesOfCorrectType]

end GraphQL
