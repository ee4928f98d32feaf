import GraphQL.Validation.Rule

/-!
Rules on fields: they exist on their type, exactly those of composite type have selections, and
their arguments are defined.
-/
namespace GraphQL.Validation

open Ast Visit

def fieldsOnCorrectType : ValidationRule :=
  NodeCheck.rule "FieldsOnCorrectType" fun _ c n _ =>
    match n, c.parent? with
    | .selection (.field f), some parent =>
      let name := f.name.value
      if c.field?.isNone && !name.startsWith "__" then [.unknownField name parent.name] else []
    | _, _ => []

def leafFieldSelections : ValidationRule :=
  NodeCheck.rule "LeafFieldSelections" fun context c n _ =>
    match n, c.type? with
    | .selection (.field f), some type =>
      match context.schema.core? type, f.selectionSet with
      | some t, some _ => if t.isLeaf then [.selectionOnLeaf f.name.value type] else []
      | some t, none => if t.isLeaf then [] else [.selectionMissing f.name.value type]
      | none, _ => []
    | _, _ => []

/-- Arguments of unknown directives and of unknown fields are not reported. -/
def knownArgumentNames : ValidationRule :=
  NodeCheck.rule "KnownArgumentNames" fun _ c n path =>
    match n, c.argument with
    | .argument a, none =>
      match path.getLast?.map (·.parent) with
      | some (Node.directive d) =>
        if c.directive.isSome then [.unknownDirectiveArgument a.name.value d.name.value] else []
      | some (Node.selection (.field _)) =>
        match c.parent?, c.field? with
        | some parent, some f => [.unknownFieldArgument a.name.value parent.name f.name]
        | _, _ => []
      | _ => []
    | _, _ => []

end GraphQL.Validation
