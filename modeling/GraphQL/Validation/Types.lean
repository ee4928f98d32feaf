import GraphQL.Validation.Rule

/-!
Rules on the types that a document names: they exist, and those of variables are input types.
-/
namespace GraphQL.Validation

open Ast Visit

/-- Whether one of the ancestors is a definition of a type system. -/
def inTypeSystem (path : List PathSegment) : Bool :=
  path.any fun segment =>
    match segment.parent with
    | .definition d => !d.isExecutable
    | _ => false

def knownTypeNames : ValidationRule :=
  NodeCheck.rule "KnownTypeNames" fun context _ n path =>
    match n with
    | .type (.named t) =>
      if (context.schema.type? t.name.value).isNone && !inTypeSystem path then
        [.unknownType t.name.value]
      else []
    | _ => []

def variablesAreInputTypes : ValidationRule :=
  NodeCheck.rule "VariablesAreInputTypes" fun context _ n _ =>
    match n with
    | .variableDefinition d =>
      let type := d.type.toTypeRef
      if (context.schema.core? type).any fun t => !t.isInput then
        [.variableNotInput d.var.name.value type]
      else []
    | _ => []

end GraphQL.Validation
