import GraphQL.Ast.Located
import GraphQL.Error

/-!
Nodes for the definitions of a type-system document.
-/
namespace GraphQL.Ast

variable (lines : Option Lines)

def descriptionOf (description : Option String) : Option StringValue :=
  description.map fun text => ⟨text, false, none⟩

def namedTypes (names : List String) : List NamedType :=
  names.map fun name => ⟨⟨name, none⟩, none⟩

def directivesOf (ds : List TypeSystem.Directive) : List Directive :=
  ds.map (Directive.located lines)

def InputValueDefinition.located (v : TypeSystem.InputValue) : InputValueDefinition :=
  ⟨descriptionOf v.description, ⟨v.name, none⟩, TypeNode.ofTypeRef v.type,
    v.default.map Value.ofLiteral, directivesOf lines v.directives, span lines v.position []⟩

def FieldDefinition.located (f : TypeSystem.Field) : FieldDefinition :=
  ⟨descriptionOf f.description, ⟨f.name, none⟩,
    f.arguments.map (InputValueDefinition.located lines), TypeNode.ofTypeRef f.type,
    directivesOf lines f.directives, span lines f.position []⟩

def EnumValueDefinition.located (v : TypeSystem.EnumValue) : EnumValueDefinition :=
  ⟨descriptionOf v.description, ⟨v.name, none⟩, directivesOf lines v.directives,
    span lines v.position []⟩

def OperationTypeDefinition.ofName (operation : OperationType) (name : String) :
    OperationTypeDefinition :=
  ⟨operation, ⟨⟨name, none⟩, none⟩, none⟩

/-- The root types of a schema block, queries first. -/
def SchemaDefinition.located (d : TypeSystem.SchemaDefinition) : SchemaDefinition :=
  ⟨directivesOf lines d.directives,
    (d.query.map (OperationTypeDefinition.ofName .query)).toList ++
      (d.mutation.map (OperationTypeDefinition.ofName .mutation)).toList ++
      (d.subscription.map (OperationTypeDefinition.ofName .subscription)).toList,
    span lines d.position []⟩

def DirectiveDefinition.located (d : TypeSystem.DirectiveDefinition) : DirectiveDefinition :=
  ⟨descriptionOf d.description, ⟨d.name, none⟩,
    d.arguments.map (InputValueDefinition.located lines), d.repeatable,
    d.locations.map fun name => ⟨name, none⟩, span lines d.position []⟩

def Definition.ofType (t : TypeSystem.TypeDefinition) : Definition :=
  match t with
  | .scalar t => .scalar ⟨descriptionOf t.description, ⟨t.name, none⟩,
      directivesOf lines t.directives, span lines t.position []⟩
  | .object t => .object ⟨descriptionOf t.description, ⟨t.name, none⟩, namedTypes t.interfaces,
      directivesOf lines t.directives, t.fields.map (FieldDefinition.located lines),
      span lines t.position []⟩
  | .interface t => .interface ⟨descriptionOf t.description, ⟨t.name, none⟩,
      namedTypes t.interfaces, directivesOf lines t.directives,
      t.fields.map (FieldDefinition.located lines), span lines t.position []⟩
  | .union t => .union ⟨descriptionOf t.description, ⟨t.name, none⟩,
      directivesOf lines t.directives, namedTypes t.types, span lines t.position []⟩
  | .enum t => .enum ⟨descriptionOf t.description, ⟨t.name, none⟩,
      directivesOf lines t.directives, t.values.map (EnumValueDefinition.located lines),
      span lines t.position []⟩
  | .inputObject t => .inputObject ⟨descriptionOf t.description, ⟨t.name, none⟩,
      directivesOf lines t.directives, t.fields.map (InputValueDefinition.located lines),
      span lines t.position []⟩

def Definition.ofTypeSystem : TypeSystem.Definition → Except AstError Definition
  | .schema d => .ok (.schema (SchemaDefinition.located lines d))
  | .type d => .ok (Definition.ofType lines d)
  | .directive d => .ok (.directive (DirectiveDefinition.located lines d))
  | .extension name => .error (.unsupportedExtension name)

/-- A document of type-system definitions; the first extension among them is an error. -/
def Document.ofTypeSystem (definitions : List TypeSystem.Definition) :
    Except AstError Document := do
  return ⟨← definitions.mapM (Definition.ofTypeSystem lines), documentSpan lines⟩

end GraphQL.Ast
