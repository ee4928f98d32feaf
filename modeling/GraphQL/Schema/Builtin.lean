import GraphQL.TypeSystem

/-!
The scalars and directives that every schema has unless its document defines them.
-/
namespace GraphQL.TypeSystem

def builtinScalar (name description : String) : ScalarType :=
  ⟨Position.start, some description, name, []⟩

def builtinScalars : List ScalarType :=
  [builtinScalar "Int" <|
      "The `Int` scalar type represents non-fractional signed whole numeric values. " ++
      "Int can represent values between -(2^31) and 2^31 - 1.",
    builtinScalar "Float" <|
      "The `Float` scalar type represents signed double-precision fractional values " ++
      "as specified by IEEE 754.",
    builtinScalar "String" <|
      "The `String` scalar type represents textual data, represented as UTF-8 character sequences.",
    builtinScalar "Boolean" "The `Boolean` scalar type represents `true` or `false`.",
    builtinScalar "ID" <|
      "The `ID` scalar type represents a unique identifier, often used to refetch an object " ++
      "or as key for a cache."]

/-- The `if` argument of the directives that select fields. -/
def conditionArgument : InputValue :=
  ⟨Position.start, none, "if", .nonNull (.named "Boolean"), none, []⟩

def selectionLocations : List String := ["FIELD", "FRAGMENT_SPREAD", "INLINE_FRAGMENT"]

def builtinDirectives : List DirectiveDefinition :=
  [⟨Position.start,
      some <| "Directs the executor to include this field or fragment only when the `if` " ++
        "argument is true.",
      "include", [conditionArgument], false, selectionLocations⟩,
    ⟨Position.start,
      some "Directs the executor to skip this field or fragment when the `if` argument is true.",
      "skip", [conditionArgument], false, selectionLocations⟩,
    ⟨Position.start, some "Marks an element of a GraphQL schema as no longer supported.",
      "deprecated",
      [⟨Position.start, none, "reason", .named "String",
        some (.string "No longer supported"), []⟩],
      false, ["FIELD_DEFINITION", "ENUM_VALUE"]⟩]

/-- `__typename: String!`, a field of every composite type. -/
def typenameField : Field :=
  ⟨⟨0, 0⟩, none, "__typename", [], .nonNull (.named "String"), []⟩

end GraphQL.TypeSystem
